import Osi.HashMap.InMemory
import Osi.HashMap.Ownership.Pairs

/-!
# The entries of a map in memory

Every entry of the map is allocated, in one bucket and in one place there, and nothing else
in memory is changed. One bucket changes at a time.
-/

namespace Osi

open Collection Memory Transition

namespace HashMapT

variable {κ δ : Type} {P : HashMapParams κ} {m m' : HashMapT P δ}
  {heap₀ : Heap (HashMapEntry κ δ)} {i : Fin P.numBucket} {a p : Addr} {e : HashMapEntry κ δ}
  {k : κ}

def chain (m : HashMapT P δ) (i : Fin P.numBucket) : List Addr := (m.bucket i).getD []

theorem contents_chain (m : HashMapT P δ) (i : Fin P.numBucket) :
    m.contents.chain i = (m.chain i).filterMap m.entry := by
  simp only [contents, HashMap.chain, chain]
  cases m.bucket i <;> rfl

theorem contents_find (m : HashMapT P δ) (k : κ) :
    m.contents.find k = lookup HashMapEntry.key P.keysAreEqual k
      ((m.chain (P.hashKey k)).filterMap m.entry) := by
  rw [HashMap.find, contents_chain]

/-- The entries of the map are allocated, each in one place, and nothing else in memory
was changed since the heap was `heap₀`. -/
structure InMemory (heap₀ : Heap (HashMapEntry κ δ)) (m : HashMapT P δ) : Prop where
  ne_null : ∀ i, ∀ a ∈ m.chain i, a ≠ 0
  allocated : ∀ i, ∀ a ∈ m.chain i, (m.entry a).isSome
  nodup : ∀ i, (m.chain i).Nodup
  disjoint : ∀ i j a, a ∈ m.chain i → a ∈ m.chain j → i = j
  outside : ∀ a, (∀ i, a ∉ m.chain i) → m.entry a = heap₀ a
  new : ∀ i, ∀ a ∈ m.chain i, heap₀ a = none

theorem inMemory_new (heap₀ : Heap (HashMapEntry κ δ)) (keyFn dataFn : Bool) :
    InMemory heap₀ (new heap₀ keyFn dataFn : HashMapT P δ) where
  ne_null _ _ ha := by cases ha
  allocated _ _ ha := by cases ha
  nodup _ := List.nodup_nil
  disjoint _ _ _ ha := by cases ha
  outside _ _ := rfl
  new _ _ ha := by cases ha

/-! ### The search and the release of one entry -/

theorem bucketFree_eq (ha0 : a ≠ 0) (ha : m.entry a = some e) :
    m.bucketFree a = some { m with
      entry := Function.update m.entry a none
      calls := m.calls ++ freeCalls m.keyFn m.dataFn e } := by
  simp [bucketFree, ha0, load, ha, free_eq ha]

inductive Finds (m : HashMapT P δ) (l : List Addr) (k : κ) : Option Addr → Prop
  | null (h : lookup HashMapEntry.key P.keysAreEqual k (l.filterMap m.entry) = none) :
      Finds m l k none
  | found (a : Addr) (e : HashMapEntry κ δ) (hmem : a ∈ l) (ha : m.entry a = some e)
      (h : lookup HashMapEntry.key P.keysAreEqual k (l.filterMap m.entry) = some e)
      (herase : (l.erase a).filterMap m.entry =
        removeFirst HashMapEntry.key P.keysAreEqual k (l.filterMap m.entry)) :
      Finds m l k (some a)

theorem findBucketEntry_spec (m : HashMapT P δ) (k : κ) {l : List Addr}
    (hl : ∀ a ∈ l, (m.entry a).isSome) :
    ∃ r, m.findBucketEntry l k = some r ∧ Finds m l k r := by
  induction l with
  | nil => exact ⟨none, rfl, .null rfl⟩
  | cons b l ih =>
      obtain ⟨e, he⟩ := Option.isSome_iff_exists.mp (hl b List.mem_cons_self)
      have hmap : (b :: l).filterMap m.entry = e :: l.filterMap m.entry :=
        List.filterMap_cons_some he
      by_cases hk : P.keysAreEqual e.key k = true
      · refine ⟨some b, by simp [findBucketEntry, load, he, hk],
          .found b e List.mem_cons_self he ?_ ?_⟩
        · rw [hmap]
          simp [lookup, hk]
        · rw [hmap, List.erase_cons_head]
          simp [removeFirst, hk]
      · obtain ⟨r, hr, hfinds⟩ := ih fun a ha => hl a (List.mem_cons_of_mem b ha)
        refine ⟨r, by simp [findBucketEntry, load, he, hk, hr], ?_⟩
        cases hfinds with
        | null hnone =>
            refine .null ?_
            rw [hmap]
            simpa [lookup, hk] using hnone
        | found a e' hmem ha hlookup herase =>
            have hab : b ≠ a := by
              rintro rfl
              obtain rfl := Option.some.inj (he.symm.trans ha)
              exact hk (key_of_lookup hlookup)
            refine .found a e' (List.mem_cons_of_mem b hmem) ha ?_ ?_
            · rw [hmap]
              simpa [lookup, hk] using hlookup
            · rw [hmap, List.erase_cons_tail (by simpa using hab),
                List.filterMap_cons_some he, herase]
              simp [removeFirst, hk]

theorem filterMap_update {l : List Addr} {heap : Heap (HashMapEntry κ δ)} (ha : a ∉ l)
    (e : Option (HashMapEntry κ δ)) :
    l.filterMap (Function.update heap a e) = l.filterMap heap := by
  refine List.filterMap_congr fun b hb => Function.update_of_ne ?_ _ _
  rintro rfl
  exact ha hb

/-! ### `hash_map_set` and `hash_map_erase` -/

@[simp] theorem setBucket_bucket (m : HashMapT P δ) (i : Fin P.numBucket) (l : List Addr) :
    (m.setBucket i l).bucket i = some l :=
  Function.update_self ..

@[simp] theorem findBucketEntry_setBucket (m : HashMapT P δ) (i : Fin P.numBucket)
    (l l' : List Addr) (k : κ) :
    (m.setBucket i l).findBucketEntry l' k = m.findBucketEntry l' k := by
  induction l' with
  | nil => rfl
  | cons a l' ih =>
      simp only [findBucketEntry, ih]
      rfl

/-- The search finds nothing, and the new entry is appended. -/
theorem set_of_null {d : δ} (hr : m.findBucketEntry (m.chain (P.hashKey k)) k = some none)
    (hp0 : p ≠ 0) (hp : m.entry p = none) :
    m.set k d p = some { m with
      bucket := Function.update m.bucket (P.hashKey k) (some (m.chain (P.hashKey k) ++ [p]))
      hashSize := m.hashSize + 1
      entry := Function.update m.entry p (some ⟨k, d⟩) } := by
  have hchain : (m.bucket (P.hashKey k)).getD [] = m.chain (P.hashKey k) := rfl
  simp only [set, hchain, setBucket_bucket, findBucketEntry_setBucket, hr, Option.bind_eq_bind,
    Option.bind_some]
  simp [setBucket, alloc, hp0, hp]

/-- The entry that the search finds is released, and the new one is appended. -/
theorem set_of_found {d : δ} (hr : m.findBucketEntry (m.chain (P.hashKey k)) k = some (some a))
    (hmem : a ∈ m.chain (P.hashKey k)) (ha0 : a ≠ 0) (ha : m.entry a = some e) (hp0 : p ≠ 0)
    (hp : Function.update m.entry a none p = none) :
    m.set k d p = some { m with
      bucket := Function.update m.bucket (P.hashKey k)
        (some ((m.chain (P.hashKey k)).erase a ++ [p]))
      entry := Function.update (Function.update m.entry a none) p (some ⟨k, d⟩)
      calls := m.calls ++ freeCalls m.keyFn m.dataFn e } := by
  have hchain : (m.bucket (P.hashKey k)).getD [] = m.chain (P.hashKey k) := rfl
  have ha' : (m.setBucket (P.hashKey k) (m.chain (P.hashKey k))).entry a = some e := ha
  simp only [set, hchain, setBucket_bucket, findBucketEntry_setBucket, hr, Option.bind_eq_bind,
    Option.bind_some, listRemove, hmem, if_true, bucketFree_eq ha0 ha', Option.map_some]
  simp [setBucket, alloc, hp0, hp]

theorem erase_of_null (hr : m.findBucketEntry (m.chain (P.hashKey k)) k = some none) :
    m.erase k = some (m, false) := by
  unfold chain at hr
  cases hb : m.bucket (P.hashKey k) with
  | none => simp [erase, hb]
  | some l =>
      rw [hb, Option.getD_some] at hr
      simp [erase, hb, hr]

theorem erase_of_found (hr : m.findBucketEntry (m.chain (P.hashKey k)) k = some (some a))
    (hmem : a ∈ m.chain (P.hashKey k)) (ha0 : a ≠ 0) (ha : m.entry a = some e) :
    m.erase k = some ({ m with
      bucket := Function.update m.bucket (P.hashKey k) (some ((m.chain (P.hashKey k)).erase a))
      hashSize := m.hashSize - 1
      entry := Function.update m.entry a none
      calls := m.calls ++ freeCalls m.keyFn m.dataFn e }, true) := by
  unfold chain at hr hmem
  cases hb : m.bucket (P.hashKey k) with
  | none =>
      rw [hb] at hmem
      cases hmem
  | some l =>
      have hchain : m.chain (P.hashKey k) = l := by rw [chain, hb, Option.getD_some]
      have ha' : ({ m with hashSize := m.hashSize - 1 } : HashMapT P δ).entry a = some e := ha
      rw [hb, Option.getD_some] at hr hmem
      simp only [erase, hb, hr, Option.bind_eq_bind, Option.bind_some, listRemove, hmem, if_true,
        bucketFree_eq ha0 ha', Option.map_some, hchain]
      rfl

/-! ### One bucket changes -/

/-- A bucket gets a new list, and the other entries stay as they are. -/
theorem contents_setBucket {l : List Addr} {es : List (HashMapEntry κ δ)}
    (hbucket : m'.bucket = Function.update m.bucket i (some l))
    (hself : l.filterMap m'.entry = es)
    (hother : ∀ j, j ≠ i → ∀ a ∈ m.chain j, m'.entry a = m.entry a) :
    m'.contents = { m.contents.setBucket i es with hashSize := m'.hashSize } := by
  have hbuckets : m'.contents.bucket = (m.contents.setBucket i es).bucket := by
    funext j
    simp only [contents, HashMap.setBucket, hbucket]
    by_cases hj : j = i
    · subst hj
      simp only [Function.update_self, Option.map_some, hself]
    · have hother := hother j hj
      rw [Function.update_of_ne hj, Function.update_of_ne hj]
      unfold chain at hother
      cases hb : m.bucket j with
      | none => rfl
      | some l' =>
          rw [hb] at hother
          exact congrArg some (List.filterMap_congr hother)
  unfold contents at hbuckets ⊢
  simp only at hbuckets
  rw [hbuckets]

theorem chain_of_bucket {l : List Addr}
    (hbucket : m'.bucket = Function.update m.bucket i (some l)) :
    m'.chain = Function.update m.chain i l := by
  funext j
  unfold chain
  rw [hbucket]
  by_cases hj : j = i
  · subst hj
    rw [Function.update_self, Function.update_self]
    rfl
  · rw [Function.update_of_ne hj, Function.update_of_ne hj]

namespace InMemory

theorem notMem_chain (h : InMemory heap₀ m) (hp : m.entry p = none) (j : Fin P.numBucket) :
    p ∉ m.chain j := by
  intro hj
  have hsome := h.allocated j p hj
  rw [hp] at hsome
  cases hsome

/-- An entry is taken out of its bucket and released. -/
theorem remove (h : InMemory heap₀ m) (ha : a ∈ m.chain i)
    (hbucket : m'.bucket = Function.update m.bucket i (some ((m.chain i).erase a)))
    (hentry : m'.entry = Function.update m.entry a none) : InMemory heap₀ m' := by
  have hchain := chain_of_bucket hbucket
  have hsub : ∀ j, ∀ b ∈ m'.chain j, b ∈ m.chain j ∧ b ≠ a := by
    intro j b hb
    rw [hchain] at hb
    by_cases hj : j = i
    · subst hj
      rw [Function.update_self, (h.nodup j).mem_erase_iff] at hb
      exact ⟨hb.2, hb.1⟩
    · rw [Function.update_of_ne hj] at hb
      refine ⟨hb, ?_⟩
      rintro rfl
      exact hj (h.disjoint j i b hb ha)
  refine ⟨fun j b hb => h.ne_null j b (hsub j b hb).1, ?_, ?_,
    fun j j' b hb hb' => h.disjoint j j' b (hsub j b hb).1 (hsub j' b hb').1, ?_,
    fun j b hb => h.new j b (hsub j b hb).1⟩
  · intro j b hb
    obtain ⟨hmem, hne⟩ := hsub j b hb
    rw [hentry, Function.update_of_ne hne]
    exact h.allocated j b hmem
  · intro j
    rw [hchain]
    by_cases hj : j = i
    · subst hj
      rw [Function.update_self]
      exact (h.nodup j).erase a
    · rw [Function.update_of_ne hj]
      exact h.nodup j
  · intro b hb
    rw [hentry]
    by_cases hba : b = a
    · subst hba
      rw [Function.update_self]
      exact (h.new i b ha).symm
    · rw [Function.update_of_ne hba]
      refine h.outside b fun j hj => hb j ?_
      rw [hchain]
      by_cases hji : j = i
      · subst hji
        rw [Function.update_self, (h.nodup j).mem_erase_iff]
        exact ⟨hba, hj⟩
      · rwa [Function.update_of_ne hji]

theorem add (h : InMemory heap₀ m) (hp0 : p ≠ 0) (hp : m.entry p = none)
    (hbucket : m'.bucket = Function.update m.bucket i (some (m.chain i ++ [p])))
    (hentry : m'.entry = Function.update m.entry p (some e)) : InMemory heap₀ m' := by
  have hchain := chain_of_bucket hbucket
  have hfresh := h.notMem_chain hp
  have hmem : ∀ j b, b ∈ m'.chain j ↔ b ∈ m.chain j ∨ j = i ∧ b = p := by
    intro j b
    rw [hchain]
    by_cases hj : j = i
    · subst hj
      simp
    · simp [hj]
  refine ⟨?_, ?_, ?_, ?_, ?_, ?_⟩
  · intro j b hb
    obtain hb | ⟨rfl, rfl⟩ := (hmem j b).mp hb
    · exact h.ne_null j b hb
    · exact hp0
  · intro j b hb
    rw [hentry]
    obtain hb | ⟨rfl, rfl⟩ := (hmem j b).mp hb
    · have hne : b ≠ p := by
        rintro rfl
        exact hfresh j hb
      rw [Function.update_of_ne hne]
      exact h.allocated j b hb
    · rw [Function.update_self]
      rfl
  · intro j
    rw [hchain]
    by_cases hj : j = i
    · subst hj
      rw [Function.update_self]
      exact List.Nodup.append (h.nodup j) (List.nodup_singleton p)
        (List.disjoint_singleton.mpr (hfresh j))
    · rw [Function.update_of_ne hj]
      exact h.nodup j
  · intro j j' b hb hb'
    obtain hb | ⟨rfl, rfl⟩ := (hmem j b).mp hb
    · obtain hb' | ⟨-, rfl⟩ := (hmem j' b).mp hb'
      · exact h.disjoint j j' b hb hb'
      · exact absurd hb (hfresh j)
    · obtain hb' | ⟨rfl, -⟩ := (hmem j' b).mp hb'
      · exact absurd hb' (hfresh j')
      · rfl
  · intro b hb
    have hne : b ≠ p := by
      rintro rfl
      exact hb i ((hmem i b).mpr (.inr ⟨rfl, rfl⟩))
    rw [hentry, Function.update_of_ne hne]
    exact h.outside b fun j hj => hb j ((hmem j b).mpr (.inl hj))
  · intro j b hb
    obtain hb | ⟨rfl, rfl⟩ := (hmem j b).mp hb
    · exact h.new j b hb
    · rw [← h.outside b hfresh]
      exact hp

end InMemory

end HashMapT

end Osi
