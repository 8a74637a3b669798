import Osi.HashMap.Ownership.Entries

/-!
# The functions on the map in memory

Every function on the map in memory does to its contents what the function of
`HashMap.Basic` does to a map, and calls `key_fn` and `data_fn` for the entries that
the latter says are released.
-/

namespace Osi

open Collection Memory Transition

namespace HashMapT

variable {κ δ : Type} {P : HashMapParams κ} {m m' : HashMapT P δ}
  {heap₀ : Heap (HashMapEntry κ δ)} {i : Fin P.numBucket} {a p : Addr} {e : HashMapEntry κ δ}
  {k : κ}

/-- The map becomes `m'`, with the given contents, and the entries `released` are
released. -/
structure Becomes (heap₀ : Heap (HashMapEntry κ δ)) (m m' : HashMapT P δ)
    (contents : HashMap P δ) (released : List (HashMapEntry κ δ)) : Prop where
  inMemory : InMemory heap₀ m'
  contents_eq : m'.contents = contents
  calls_eq : m'.calls = m.calls ++ released.flatMap (freeCalls m.keyFn m.dataFn)
  keyFn_eq : m'.keyFn = m.keyFn
  dataFn_eq : m'.dataFn = m.dataFn

namespace InMemory

theorem set_spec (h : InMemory heap₀ m) {k : κ} (hp : m.usable k p = true) (d : δ) :
    ∃ m', m.set k d p = some m' ∧ m'.live = m.live ∧
      Becomes heap₀ m m' (m.contents.set .succeeding k d).1
        (m.contents.set .succeeding k d).2.1 := by
  obtain ⟨hp0, hp⟩ := of_decide_eq_true hp
  rw [Option.isNone_iff_eq_none] at hp
  obtain ⟨r, hr, hfinds⟩ := m.findBucketEntry_spec k (h.allocated (P.hashKey k))
  rw [HashMap.set_succeeding, contents_find, contents_chain]
  cases hfinds with
  | null hnone =>
      have hp : m.entry p = none := hp.resolve_right fun hfound => by
        cases hr.symm.trans hfound
      have hfresh := h.notMem_chain hp
      refine ⟨_, set_of_null hr hp0 hp, rfl, h.add hp0 hp rfl rfl, ?_, ?_, rfl, rfl⟩
      · rw [hnone, removeFirst_of_lookup_none hnone]
        refine contents_setBucket rfl ?_ ?_
        · rw [List.filterMap_append, filterMap_update (hfresh _)]
          simp
        · intro j hj b hb
          refine Function.update_of_ne ?_ _ _
          rintro rfl
          exact hfresh j hb
      · rw [hnone]
        simp
  | found a e hmem ha hlookup herase =>
      have hgone : a ∉ (m.chain (P.hashKey k)).erase a := (h.nodup _).not_mem_erase
      let m₁ : HashMapT P δ := { m with
        bucket := Function.update m.bucket (P.hashKey k) (some ((m.chain (P.hashKey k)).erase a))
        entry := Function.update m.entry a none }
      have hm₁ : InMemory heap₀ m₁ := h.remove hmem rfl rfl
      -- the address is free once the old entry is released, if it is not that entry's own
      have hp₁ : m₁.entry p = none := by
        rcases hp with hp | hfound
        · by_cases hpa : p = a
          · exact hpa ▸ Function.update_self a none m.entry
          · exact (Function.update_of_ne hpa _ _).trans hp
        · cases hr.symm.trans hfound
          exact Function.update_self p none m.entry
      have hfresh := hm₁.notMem_chain hp₁
      have hchain : m₁.chain = Function.update m.chain (P.hashKey k)
          ((m.chain (P.hashKey k)).erase a) := chain_of_bucket rfl
      refine ⟨_, set_of_found hr hmem (h.ne_null _ a hmem) ha hp0 hp₁, rfl,
        hm₁.add (i := P.hashKey k) hp0 hp₁ ?_ rfl, ?_, ?_, rfl, rfl⟩
      · rw [hchain, Function.update_self, Function.update_idem]
      · rw [hlookup]
        refine contents_setBucket rfl ?_ ?_
        · have hself := hfresh (P.hashKey k)
          rw [hchain, Function.update_self] at hself
          rw [List.filterMap_append, filterMap_update hself, filterMap_update hgone, herase]
          simp
        · intro j hj b hb
          have hbp : b ≠ p := by
            rintro rfl
            refine hfresh j ?_
            rwa [hchain, Function.update_of_ne hj]
          have hba : b ≠ a := by
            rintro rfl
            exact hj (h.disjoint j _ b hb hmem)
          exact (Function.update_of_ne hbp _ _).trans (Function.update_of_ne hba _ _)
      · rw [hlookup]
        simp

theorem erase_spec (h : InMemory heap₀ m) (k : κ) :
    ∃ m', m.erase k = some (m', (m.contents.erase k).2.2) ∧ m'.live = m.live ∧
      Becomes heap₀ m m' (m.contents.erase k).1 (m.contents.erase k).2.1 := by
  obtain ⟨r, hr, hfinds⟩ := m.findBucketEntry_spec k (h.allocated (P.hashKey k))
  have hfind := m.contents_find k
  cases hfinds with
  | null hnone =>
      rw [hnone] at hfind
      rw [HashMap.erase_of_find_none hfind]
      exact ⟨m, erase_of_null hr, rfl, h, rfl, by simp, rfl, rfl⟩
  | found a e hmem ha hlookup herase =>
      rw [hlookup] at hfind
      rw [HashMap.erase_of_find_some hfind, contents_chain]
      have hgone : a ∉ (m.chain (P.hashKey k)).erase a := (h.nodup _).not_mem_erase
      refine ⟨_, erase_of_found hr hmem (h.ne_null _ a hmem) ha, rfl, h.remove hmem rfl rfl, ?_,
        by simp, rfl, rfl⟩
      refine contents_setBucket rfl ?_ ?_
      · rw [filterMap_update hgone, herase]
      · intro j hj b hb
        refine Function.update_of_ne ?_ _ _
        rintro rfl
        exact hj (h.disjoint j _ b hb hmem)

end InMemory

/-! ### `hash_map_clear` -/

theorem listClear_eq {l : List Addr} (hl0 : ∀ a ∈ l, a ≠ 0) (hl : ∀ a ∈ l, (m.entry a).isSome)
    (hnodup : l.Nodup) :
    m.listClear l = some { m with
      entry := fun a => if a ∈ l then none else m.entry a
      calls := m.calls ++ (l.filterMap m.entry).flatMap (freeCalls m.keyFn m.dataFn) } := by
  induction l generalizing m with
  | nil => simp [listClear]
  | cons a l ih =>
      obtain ⟨e, he⟩ := Option.isSome_iff_exists.mp (hl a List.mem_cons_self)
      obtain ⟨hal, hnodup⟩ := List.nodup_cons.mp hnodup
      have hrest : ∀ b ∈ l, (Function.update m.entry a none b).isSome := by
        intro b hb
        have hba : b ≠ a := by
          rintro rfl
          exact hal hb
        rw [Function.update_of_ne hba]
        exact hl b (List.mem_cons_of_mem a hb)
      rw [listClear, bucketFree_eq (hl0 a List.mem_cons_self) he, Option.bind_eq_bind,
        Option.bind_some, ih (fun b hb => hl0 b (List.mem_cons_of_mem a hb)) hrest hnodup,
        filterMap_update hal, List.filterMap_cons_some he, List.flatMap_cons, List.append_assoc]
      congr 2
      funext b
      by_cases hba : b = a
      · subst hba
        simp
      · simp [hba]

namespace InMemory

theorem clearBucket (h : InMemory heap₀ m)
    (hbucket : m'.bucket = Function.update m.bucket i none)
    (hentry : m'.entry = fun a => if a ∈ m.chain i then none else m.entry a) :
    InMemory heap₀ m' := by
  have hchain : ∀ j a, a ∈ m'.chain j ↔ j ≠ i ∧ a ∈ m.chain j := by
    intro j a
    unfold chain
    rw [hbucket]
    by_cases hj : j = i
    · subst hj
      simp
    · simp [hj]
  have hkept : ∀ j, ∀ a ∈ m'.chain j, a ∉ m.chain i := by
    intro j a ha hai
    obtain ⟨hj, ha⟩ := (hchain j a).mp ha
    exact hj (h.disjoint j i a ha hai)
  refine ⟨?_, ?_, ?_, ?_, ?_, ?_⟩
  · intro j a ha
    exact h.ne_null j a ((hchain j a).mp ha).2
  · intro j a ha
    rw [hentry]
    simp only [hkept j a ha, if_false]
    exact h.allocated j a ((hchain j a).mp ha).2
  · intro j
    unfold chain
    rw [hbucket]
    by_cases hj : j = i
    · subst hj
      rw [Function.update_self]
      exact List.nodup_nil
    · rw [Function.update_of_ne hj]
      exact h.nodup j
  · intro j j' a ha ha'
    exact h.disjoint j j' a ((hchain j a).mp ha).2 ((hchain j' a).mp ha').2
  · intro a ha
    rw [hentry]
    by_cases hai : a ∈ m.chain i
    · simp only [hai, if_true]
      exact (h.new i a hai).symm
    · simp only [hai, if_false]
      refine h.outside a fun j hj => ha j ((hchain j a).mpr ⟨?_, hj⟩)
      rintro rfl
      exact hai hj
  · intro j a ha
    exact h.new j a ((hchain j a).mp ha).2

theorem clearFrom_spec (h : InMemory heap₀ m) {is : List (Fin P.numBucket)} (his : is.Nodup) :
    ∃ m', m.clearFrom is = some m' ∧ InMemory heap₀ m' ∧
      (∀ j, m'.bucket j = if j ∈ is then none else m.bucket j) ∧
      m'.calls = m.calls ++ (is.flatMap fun i => (m.chain i).filterMap m.entry).flatMap
        (freeCalls m.keyFn m.dataFn) ∧
      m'.hashSize = m.hashSize ∧ m'.keyFn = m.keyFn ∧ m'.dataFn = m.dataFn ∧
      m'.live = m.live := by
  induction is generalizing m with
  | nil => exact ⟨m, rfl, h, by simp, by simp, rfl, rfl, rfl, rfl⟩
  | cons i is ih =>
      obtain ⟨hi, his⟩ := List.nodup_cons.mp his
      cases hb : m.bucket i with
      | none =>
          obtain ⟨m', hm', hin, hbucket, hcalls, hrest⟩ := ih h his
          refine ⟨m', by simp [clearFrom, hb, hm'], hin, ?_, ?_, hrest⟩
          · intro j
            rw [hbucket]
            by_cases hj : j = i
            · subst hj
              simp [hi, hb]
            · simp [hj]
          · have hnil : m.chain i = [] := by rw [chain, hb, Option.getD_none]
            rw [hcalls, List.flatMap_cons, hnil]
            rfl
      | some l =>
          have hl : m.chain i = l := by rw [chain, hb, Option.getD_some]
          let m₁ : HashMapT P δ := { m with
            bucket := Function.update m.bucket i none
            entry := fun a => if a ∈ m.chain i then none else m.entry a
            calls := m.calls ++ ((m.chain i).filterMap m.entry).flatMap
              (freeCalls m.keyFn m.dataFn) }
          have hm₁ : InMemory heap₀ m₁ := h.clearBucket rfl rfl
          have hclear : m.clearFrom (i :: is) = m₁.clearFrom is := by
            simp only [clearFrom, hb, Option.bind_eq_bind]
            rw [listClear_eq (hl ▸ h.ne_null i) (hl ▸ h.allocated i) (hl ▸ h.nodup i),
              Option.bind_some]
            simp only [m₁, hl]
          have hsame : (is.flatMap fun j => (m₁.chain j).filterMap m₁.entry) =
              is.flatMap fun j => (m.chain j).filterMap m.entry := by
            rw [List.flatMap_def, List.flatMap_def]
            refine congrArg List.flatten (List.map_congr_left fun j hj => ?_)
            have hji : j ≠ i := by
              rintro rfl
              exact hi hj
            have hchain : m₁.chain j = m.chain j := by
              simp [chain, m₁, hji]
            rw [hchain]
            refine List.filterMap_congr fun a ha => if_neg fun hai => hji ?_
            exact h.disjoint j i a ha hai
          obtain ⟨m', hm', hin, hbucket, hcalls, hrest⟩ := ih hm₁ his
          refine ⟨m', hclear.trans hm', hin, ?_, ?_, hrest⟩
          · intro j
            rw [hbucket]
            by_cases hj : j = i
            · subst hj
              simp [m₁]
            · simp [m₁, hj]
          · rw [hcalls, hsame, List.flatMap_cons, List.flatMap_append, ← List.append_assoc]

theorem clear_spec (h : InMemory heap₀ m) :
    ∃ m', m.clear = some m' ∧ m'.live = m.live ∧ m'.entry = heap₀ ∧
      Becomes heap₀ m m' m.contents.clear.1 m.contents.clear.2 := by
  obtain ⟨m', hm', hin, hbucket, hcalls, hsize, hkey, hdata, hlive⟩ :=
    h.clearFrom_spec (List.nodup_finRange P.numBucket)
  have hempty : ∀ j, m'.bucket j = none := by
    intro j
    rw [hbucket, if_pos (List.mem_finRange j)]
  refine ⟨m', hm', hlive, ?_, hin, ?_, ?_, hkey, hdata⟩
  · funext a
    refine hin.outside a fun j hj => ?_
    rw [chain, hempty] at hj
    cases hj
  · simp [contents, HashMap.clear, hempty, hsize]
  · rw [hcalls]
    simp only [← contents_chain]
    rfl

end InMemory

end HashMapT

end Osi
