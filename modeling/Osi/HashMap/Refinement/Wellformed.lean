import Osi.HashMap.Basic
import Osi.Collection.Last
import Mathlib.Algebra.BigOperators.Fin
import Mathlib.Data.Set.Card
import Mathlib.Algebra.Order.BigOperators.Group.Finset

/-!
# The hash map is a finite map

The invariant `Wellformed` of the maps that `hash_map_set` and `hash_map_erase`
reach says that every entry is in the bucket its key selects, that a bucket has
no two entries with equal keys, and that `hash_size` is the number of entries.
With it, one update changes the reading of exactly the keys equal to the one it
names, and the readings after a history of updates are those of the last update
of an equal key.
-/

namespace Osi

open Collection

namespace HashMap

variable {κ δ γ : Type*} {P : HashMapParams κ} {m : HashMap P δ} {k k' : κ}

/-- The entries of a bucket; a bucket without a list has none. -/
def chain (m : HashMap P δ) (i : Fin P.numBucket) : List (HashMapEntry κ δ) :=
  (m.bucket i).getD []

def find (m : HashMap P δ) (k : κ) : Option (HashMapEntry κ δ) :=
  lookup HashMapEntry.key P.keysAreEqual k (m.chain (P.hashKey k))

theorem findBucketEntry_eq (b : Option (List (HashMapEntry κ δ))) (k : κ) :
    findBucketEntry (P := P) b k =
      lookup HashMapEntry.key P.keysAreEqual k (b.getD []) := by
  cases b <;> rfl

theorem get_eq (m : HashMap P δ) (k : κ) :
    m.get k = (m.find k).map HashMapEntry.data := by
  rw [get, findBucketEntry_eq]
  rfl

theorem hasKey_eq (m : HashMap P δ) (k : κ) : m.hasKey k = (m.find k).isSome := by
  rw [hasKey, findBucketEntry_eq]
  rfl

theorem chain_setBucket (m : HashMap P δ) (i : Fin P.numBucket)
    (l : List (HashMapEntry κ δ)) :
    (m.setBucket i l).chain = Function.update m.chain i l := by
  funext j
  by_cases hj : j = i
  · subst hj
    simp [chain, setBucket]
  · simp [chain, setBucket, hj]

/-- `hash_map_set` from the search on. Removing an entry that is not there
changes nothing, so the list is the same in both branches. -/
theorem setIn_eq (m : HashMap P δ) (a : Allocation) (k : κ) (d : δ)
    (l : List (HashMapEntry κ δ)) :
    m.setIn a k d l =
      ({ m.setBucket (P.hashKey k)
            (removeFirst HashMapEntry.key P.keysAreEqual k l ++
              if a.entry && a.node then [⟨k, d⟩] else []) with
          hashSize := m.hashSize +
            if (lookup HashMapEntry.key P.keysAreEqual k l).isSome then 0 else 1 },
        (lookup HashMapEntry.key P.keysAreEqual k l).toList, a.entry && a.node) := by
  cases hfind : lookup HashMapEntry.key P.keysAreEqual k l with
  | none =>
      rw [removeFirst_of_lookup_none hfind]
      cases hmem : a.entry && a.node <;>
        simp [setIn, findBucketEntry, hfind, hmem, setBucket]
  | some e =>
      cases hmem : a.entry && a.node <;>
        simp [setIn, findBucketEntry, hfind, hmem, setBucket]

theorem set_succeeding (m : HashMap P δ) (k : κ) (d : δ) :
    m.set .succeeding k d =
      ({ m.setBucket (P.hashKey k)
            (removeFirst HashMapEntry.key P.keysAreEqual k (m.chain (P.hashKey k)) ++
              [⟨k, d⟩]) with
          hashSize := m.hashSize + if (m.find k).isSome then 0 else 1 },
        (m.find k).toList, true) := by
  have hset : m.set .succeeding k d =
      m.setIn .succeeding k d (m.chain (P.hashKey k)) := by
    unfold set chain
    cases m.bucket (P.hashKey k) <;> rfl
  rw [hset, setIn_eq]
  rfl

theorem erase_of_find_none (h : m.find k = none) : m.erase k = (m, [], false) := by
  unfold find chain at h
  cases hb : m.bucket (P.hashKey k) with
  | none => simp [erase, hb]
  | some l =>
      rw [hb, Option.getD_some] at h
      simp [erase, hb, findBucketEntry, h]

theorem erase_of_find_some {e : HashMapEntry κ δ} (h : m.find k = some e) :
    m.erase k =
      ({ m.setBucket (P.hashKey k)
            (removeFirst HashMapEntry.key P.keysAreEqual k (m.chain (P.hashKey k))) with
          hashSize := m.hashSize - 1 }, [e], true) := by
  unfold find chain at h
  cases hb : m.bucket (P.hashKey k) with
  | none =>
      rw [hb] at h
      simp [lookup] at h
  | some l =>
      rw [hb, Option.getD_some] at h
      simp [erase, chain, hb, findBucketEntry, h]

def total (m : HashMap P δ) : ℕ := ∑ i, (m.chain i).length

theorem length_chain_le (m : HashMap P δ) (i : Fin P.numBucket) :
    (m.chain i).length ≤ m.total :=
  Finset.single_le_sum (f := fun i => (m.chain i).length) (fun _ _ => Nat.zero_le _)
    (Finset.mem_univ i)

/-- Replacing the list of one bucket moves the total by the difference. -/
theorem total_setBucket (m : HashMap P δ) (i : Fin P.numBucket)
    (l : List (HashMapEntry κ δ)) :
    (m.setBucket i l).total + (m.chain i).length = m.total + l.length := by
  have hcomp : ∀ j, ((m.setBucket i l).chain j).length =
      Function.update (fun j => (m.chain j).length) i l.length j := by
    intro j
    rw [chain_setBucket]
    by_cases hj : j = i
    · subst hj
      simp
    · simp [hj]
  have hrest := Finset.add_sum_erase Finset.univ (fun j => (m.chain j).length)
    (Finset.mem_univ i)
  have hrest' := Finset.sum_update_of_mem (Finset.mem_univ i)
    (fun j => (m.chain j).length) l.length
  rw [Finset.sdiff_singleton_eq_erase] at hrest'
  unfold total
  simp only [hcomp]
  omega

structure Wellformed (m : HashMap P δ) : Prop where
  placed : ∀ i, ∀ e ∈ m.chain i, P.hashKey e.key = i
  distinct : ∀ i, Distinct HashMapEntry.key P.keysAreEqual (m.chain i)
  hashSize_eq : m.hashSize = m.total

theorem wellformed_new : Wellformed (new : HashMap P δ) := by
  refine ⟨?_, ?_, ?_⟩
  · intro i e he
    cases he
  · intro i
    exact List.Pairwise.nil
  · simp [total, new, chain]

namespace Wellformed

/-- What remains of the invariant when the list of one bucket is replaced. -/
theorem setBucket (h : Wellformed m) {i : Fin P.numBucket}
    {l : List (HashMapEntry κ δ)} (hplaced : ∀ e ∈ l, P.hashKey e.key = i)
    (hdistinct : Distinct HashMapEntry.key P.keysAreEqual l) {n : ℕ}
    (hn : n + (m.chain i).length = m.hashSize + l.length) :
    Wellformed { m.setBucket i l with hashSize := n } := by
  have hchain : ∀ j, HashMap.chain { m.setBucket i l with hashSize := n } j =
      Function.update m.chain i l j := by
    intro j
    rw [← chain_setBucket]
    rfl
  have htotal := total_setBucket m i l
  refine ⟨?_, ?_, ?_⟩
  · intro j e he
    rw [hchain] at he
    by_cases hj : j = i
    · subst hj
      rw [Function.update_self] at he
      exact hplaced e he
    · rw [Function.update_of_ne hj] at he
      exact h.placed j e he
  · intro j
    rw [hchain]
    by_cases hj : j = i
    · subst hj
      rw [Function.update_self]
      exact hdistinct
    · rw [Function.update_of_ne hj]
      exact h.distinct j
  · have hsize := h.hashSize_eq
    change n = (m.setBucket i l).total
    omega

theorem set (h : Wellformed m) (hP : P.Lawful) (k : κ) (d : δ) :
    Wellformed (m.set .succeeding k d).1 := by
  rw [set_succeeding]
  have hgone : lookup HashMapEntry.key P.keysAreEqual k
      (removeFirst HashMapEntry.key P.keysAreEqual k (m.chain (P.hashKey k))) = none := by
    rw [lookup_removeFirst hP.equality (h.distinct _), if_pos (hP.equality.refl k)]
  refine h.setBucket ?_ ((h.distinct _).removeFirst.concat hgone) ?_
  · intro e he
    rcases List.mem_append.mp he with he | he
    · exact h.placed _ e (removeFirst_sublist.mem he)
    · obtain rfl := List.mem_singleton.mp he
      rfl
  · rw [List.length_append, List.length_singleton]
    cases hfind : m.find k with
    | none =>
        rw [removeFirst_of_lookup_none hfind]
        simp
        omega
    | some e =>
        rw [length_removeFirst hfind]
        simp

theorem erase (h : Wellformed m) (k : κ) : Wellformed (m.erase k).1 := by
  cases hfind : m.find k with
  | none =>
      rw [erase_of_find_none hfind]
      exact h
  | some e =>
      rw [erase_of_find_some hfind]
      refine h.setBucket ?_ (h.distinct _).removeFirst ?_
      · intro e he
        exact h.placed _ e (removeFirst_sublist.mem he)
      · have hlen := length_removeFirst hfind
        have hle := length_chain_le m (P.hashKey k)
        have hsize := h.hashSize_eq
        omega

end Wellformed

/-- A key is looked up in one bucket, so replacing a bucket is seen by the keys
that select it and by no others. -/
theorem find_setBucket (m : HashMap P δ) (i : Fin P.numBucket)
    (l : List (HashMapEntry κ δ)) (n : ℕ) (k : κ) :
    find { m.setBucket i l with hashSize := n } k =
      if P.hashKey k = i then lookup HashMapEntry.key P.keysAreEqual k l
      else m.find k := by
  have hchain : chain { m.setBucket i l with hashSize := n } (P.hashKey k) =
      Function.update m.chain i l (P.hashKey k) := by
    rw [← chain_setBucket]
    rfl
  rw [find, hchain]
  split
  · rename_i hi
    rw [hi, Function.update_self]
  · rename_i hi
    rw [Function.update_of_ne hi]
    rfl

theorem Wellformed.find_set (h : Wellformed m) (hP : P.Lawful) (k k' : κ) (d : δ) :
    (m.set .succeeding k d).1.find k' =
      if P.keysAreEqual k k' then some ⟨k, d⟩ else m.find k' := by
  rw [set_succeeding, find_setBucket]
  by_cases hbucket : P.hashKey k' = P.hashKey k
  · rw [if_pos hbucket, lookup_concat, lookup_removeFirst hP.equality (h.distinct _),
      ← hbucket]
    by_cases hk : P.keysAreEqual k k' = true
    · simp [hk]
    · simp [hk, HashMap.find]
  · have hk : ¬ P.keysAreEqual k k' = true := by
      intro hk
      exact hbucket (hP.hashKey_eq hk).symm
    rw [if_neg hbucket, if_neg hk]

theorem Wellformed.find_erase (h : Wellformed m) (hP : P.Lawful) (k k' : κ) :
    (m.erase k).1.find k' = if P.keysAreEqual k k' then none else m.find k' := by
  cases hfind : m.find k with
  | none =>
      rw [erase_of_find_none hfind]
      split
      · rename_i hk
        rw [HashMap.find, hP.hashKey_eq hk] at hfind
        rw [HashMap.find, ← lookup_congr hP.equality hk, hfind]
      · rfl
  | some e =>
      rw [erase_of_find_some hfind, find_setBucket]
      by_cases hbucket : P.hashKey k' = P.hashKey k
      · rw [if_pos hbucket, lookup_removeFirst hP.equality (h.distinct _), ← hbucket]
        rfl
      · have hk : ¬ P.keysAreEqual k k' = true := by
          intro hk
          exact hbucket (hP.hashKey_eq hk).symm
        rw [if_neg hbucket, if_neg hk]

inductive Update (κ δ : Type*)
  | set (key : κ) (data : δ)
  | erase (key : κ)

namespace Update

def key : Update κ δ → κ
  | .set k _ => k
  | .erase k => k

def value : Update κ δ → Option δ
  | .set _ d => some d
  | .erase _ => none

end Update

def Touches (P : HashMapParams κ) (k : κ) (u : Update κ δ) : Prop :=
  P.keysAreEqual u.key k = true

/-- One update, with what it returns; allocations succeed. -/
def update (m : HashMap P δ) : Update κ δ → HashMap P δ × Bool
  | .set k d =>
      let (m', _, result) := m.set .succeeding k d
      (m', result)
  | .erase k =>
      let (m', _, result) := m.erase k
      (m', result)

theorem Wellformed.update (h : Wellformed m) (hP : P.Lawful) (u : Update κ δ) :
    Wellformed (m.update u).1 := by
  cases u with
  | set k d => exact h.set hP k d
  | erase k => exact h.erase k

/-- An update changes the reading of exactly the keys equal to the one it
names. -/
theorem Wellformed.get_update (h : Wellformed m) (hP : P.Lawful) (u : Update κ δ)
    (k : κ) :
    (m.update u).1.get k = if P.keysAreEqual u.key k then u.value else m.get k := by
  rw [get_eq, get_eq]
  cases u with
  | set k' d =>
      change ((m.set .succeeding k' d).1.find k).map _ = _
      rw [h.find_set hP, apply_ite (Option.map HashMapEntry.data)]
      rfl
  | erase k' =>
      change ((m.erase k').1.find k).map _ = _
      rw [h.find_erase hP, apply_ite (Option.map HashMapEntry.data)]
      rfl

def after (P : HashMapParams κ) (us : List (Update κ δ)) : HashMap P δ :=
  (Transition.calls update new us).1

theorem after_concat (us : List (Update κ δ)) (u : Update κ δ) :
    after P (us ++ [u]) = ((after P us).update u).1 := by
  rw [after, Transition.calls_concat]
  rfl

theorem wellformed_after (hP : P.Lawful) (us : List (Update κ δ)) :
    Wellformed (after P us) :=
  Transition.calls_invariant (fun _ u h => h.update hP u) wellformed_new us

theorem get_after (hP : P.Lawful) (us : List (Update κ δ)) (k : κ) (d : δ) :
    (after P us).get k = some d ↔
      ∃ n k', IsLast (Touches P k) us n (.set k' d) := by
  induction us using List.reverseRecOn with
  | nil =>
      have hnone : (after P ([] : List (Update κ δ))).get k = none := rfl
      rw [hnone]
      constructor
      · intro h
        cases h
      · rintro ⟨n, k', h⟩
        exact absurd h.lt_length (Nat.not_lt_zero n)
  | append_singleton us u ih =>
      rw [after_concat, (wellformed_after hP us).get_update hP]
      by_cases hk : P.keysAreEqual u.key k = true
      · have htouch : Touches P k u := hk
        rw [if_pos hk]
        simp only [IsLast.concat_iff_of htouch]
        cases u with
        | set k' d' => simp [Update.value]
        | erase k' => simp [Update.value]
      · have htouch : ¬ Touches P k u := hk
        rw [if_neg hk, ih]
        simp only [IsLast.concat_iff_of_not htouch]

end HashMap

end Osi
