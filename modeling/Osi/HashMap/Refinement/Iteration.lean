import Osi.HashMap.Refinement.Entries

/-!
# The iteration over a hash map

`hash_map_foreach` visits every entry once, until the callback returns false.
-/

namespace Osi

open Collection

namespace HashMap

variable {κ δ γ : Type*} {P : HashMapParams κ} {m : HashMap P δ} {k k' : κ}

def contextAfter (callback : HashMapEntry κ δ → γ → γ × Bool) (context : γ)
    (l : List (HashMapEntry κ δ)) : γ :=
  l.foldl (fun c e => (callback e c).1) context

def logged (callback : HashMapEntry κ δ → γ → γ × Bool) :
    HashMapEntry κ δ → γ × List (HashMapEntry κ δ) →
      (γ × List (HashMapEntry κ δ)) × Bool :=
  fun e (c, seen) => (((callback e c).1, seen ++ [e]), (callback e c).2)

def visited (m : HashMap P δ) (callback : HashMapEntry κ δ → γ → γ × Bool)
    (context : γ) : List (HashMapEntry κ δ) :=
  (m.foreach (logged callback) (context, [])).2

/-- A walk over `l` that saw the entries `seen`: a first part of `l`, in which
every callback but the last returned true, and the last one false if part of
`l` was left out. -/
structure Walk (callback : HashMapEntry κ δ → γ → γ × Bool) (context : γ)
    (l seen : List (HashMapEntry κ δ)) : Prop where
  initial : ∃ rest, l = seen ++ rest
  going : ∀ pre e post, seen = pre ++ e :: post → post ≠ [] →
    (callback e (contextAfter callback context pre)).2 = true
  stopped : seen ≠ l → ∃ pre e, seen = pre ++ [e] ∧
    (callback e (contextAfter callback context pre)).2 = false

theorem foreachBucket_append (callback : HashMapEntry κ δ → γ → γ × Bool)
    (l l' : List (HashMapEntry κ δ)) (context : γ) :
    foreachBucket callback (l ++ l') context =
      match foreachBucket callback l context with
      | (context', true) => foreachBucket callback l' context'
      | (context', false) => (context', false) := by
  induction l generalizing context with
  | nil => rfl
  | cons e l ih =>
      rw [List.cons_append, foreachBucket, foreachBucket]
      rcases callback e context with ⟨context', go⟩
      cases go with
      | true => exact ih context'
      | false => rfl

/-- The two loops of `hash_map_foreach` are one loop over all entries. -/
theorem foreachFrom_eq (m : HashMap P δ) (callback : HashMapEntry κ δ → γ → γ × Bool)
    (is : List (Fin P.numBucket)) (context : γ) :
    m.foreachFrom callback is context =
      (foreachBucket callback (is.flatMap m.chain) context).1 := by
  induction is generalizing context with
  | nil => rfl
  | cons i is ih =>
      rw [foreachFrom, List.flatMap_cons, foreachBucket_append]
      cases hb : m.bucket i with
      | none => simp [chain, hb, foreachBucket, ih]
      | some l =>
          simp only [chain, hb, Option.getD_some]
          rcases foreachBucket callback l context with ⟨context', go⟩
          cases go with
          | true => exact ih context'
          | false => rfl

/-- A callback that never stops the walk sees every entry. -/
theorem foreach_of_true (m : HashMap P δ) {callback : HashMapEntry κ δ → γ → γ × Bool}
    (hcallback : ∀ e c, (callback e c).2 = true) (context : γ) :
    m.foreach callback context = contextAfter callback context m.entries := by
  have hbucket : ∀ l context, foreachBucket callback l context =
      (contextAfter callback context l, true) := by
    intro l
    induction l with
    | nil => intro context; rfl
    | cons e l ih =>
        intro context
        have hcall : callback e context = ((callback e context).1, true) :=
          Prod.ext rfl (hcallback e context)
        rw [foreachBucket, hcall]
        exact ih _
  rw [foreach, foreachFrom_eq, hbucket]
  rfl

theorem walk_foreachBucket (callback : HashMapEntry κ δ → γ → γ × Bool) (context : γ)
    (l before : List (HashMapEntry κ δ)) :
    ∃ seen, (foreachBucket (logged callback) l (context, before)).1.2 = before ++ seen ∧
      Walk callback context l seen := by
  induction l generalizing context before with
  | nil =>
      refine ⟨[], by simp [foreachBucket], ⟨[], rfl⟩, ?_, fun h => absurd rfl h⟩
      intro pre e post h
      simp at h
  | cons e l ih =>
      have hstep : logged callback e (context, before) =
          (((callback e context).1, before ++ [e]), (callback e context).2) := rfl
      cases hgo : (callback e context).2 with
      | false =>
          refine ⟨[e], ?_, ⟨l, rfl⟩, ?_, fun _ => ⟨[], e, rfl, hgo⟩⟩
          · rw [foreachBucket, hstep, hgo]
          · intro pre e' post h hpost
            have hlen := congrArg List.length h
            simp only [List.length_append, List.length_cons, List.length_nil] at hlen
            exact absurd (List.length_eq_zero_iff.mp (by omega)) hpost
      | true =>
          obtain ⟨seen, hseen, ⟨rest, hrest⟩, hgoing, hstopped⟩ :=
            ih (callback e context).1 (before ++ [e])
          refine ⟨e :: seen, ?_, ⟨rest, by rw [hrest, List.cons_append]⟩, ?_, ?_⟩
          · rw [foreachBucket, hstep, hgo]
            simpa using hseen
          · intro pre e' post h hpost
            cases pre with
            | nil =>
                obtain ⟨rfl, rfl⟩ := List.cons_eq_cons.mp h
                exact hgo
            | cons e₀ pre =>
                obtain ⟨rfl, htail⟩ := List.cons_eq_cons.mp h
                exact hgoing pre e' post htail hpost
          · intro hne
            obtain ⟨pre, e', rfl, hfalse⟩ := hstopped fun h => hne (by rw [h])
            exact ⟨e :: pre, e', rfl, hfalse⟩

theorem walk_visited (m : HashMap P δ) (callback : HashMapEntry κ δ → γ → γ × Bool)
    (context : γ) : Walk callback context m.entries (m.visited callback context) := by
  obtain ⟨seen, hseen, hwalk⟩ := walk_foreachBucket callback context m.entries []
  have hvisited : m.visited callback context = seen := by
    rw [visited, foreach, foreachFrom_eq]
    exact hseen
  rw [hvisited]
  exact hwalk

/-- After any sequence of updates the hash map is the finite map that the
updates describe: a key reads what the last update of an equal key left,
`hash_map_has_key` and `hash_map_erase` tell whether it reads anything, the size
counts the classes of equal keys and the entries in the buckets, and
`hash_map_foreach` walks over the entries, one for every class. -/
theorem hash_map_refines_finite_map (hP : P.Lawful) (us : List (Update κ δ)) :
    let m := after P us
    (∀ k d, m.get k = some d ↔ ∃ n k', IsLast (Touches P k) us n (.set k' d)) ∧
      (∀ k, m.hasKey k = true ↔ m.get k ≠ none) ∧
      (∀ k, (m.erase k).2.2 = true ↔ m.get k ≠ none) ∧
      m.size = Set.ncard {c : Quotient hP.setoid |
        ∃ k, Quotient.mk hP.setoid k = c ∧ m.get k ≠ none} ∧
      m.size = ∑ i, (m.chain i).length ∧
      (∀ k d, m.get k = some d ↔
        ∃ e ∈ m.entries, P.keysAreEqual e.key k = true ∧ e.data = d) ∧
      Distinct HashMapEntry.key P.keysAreEqual m.entries ∧
      ∀ (γ : Type) (callback : HashMapEntry κ δ → γ → γ × Bool) (context : γ),
        Walk callback context m.entries (m.visited callback context) := by
  intro m
  have hwf : Wellformed m := wellformed_after hP us
  have hget : ∀ k, m.get k ≠ none ↔ ∃ e, m.find k = some e := by
    intro k
    rw [get_eq, Ne, Option.map_eq_none_iff, ← Ne, Option.ne_none_iff_exists']
  refine ⟨get_after hP us, ?_, ?_, ?_, hwf.hashSize_eq, fun k d => hwf.get_eq_some_iff hP,
    hwf.distinct_entries hP, fun γ callback context => walk_visited m callback context⟩
  · intro k
    rw [hasKey_eq, hget, Option.isSome_iff_exists]
  · intro k
    rw [hget]
    cases hfind : m.find k with
    | none => simp [erase_of_find_none hfind]
    | some e => simp [erase_of_find_some hfind]
  · rw [hwf.ncard_classes hP, length_entries]
    exact hwf.hashSize_eq

def moduloFour : HashMapParams ℕ where
  numBucket := 2
  hashFn := fun k => k % 4
  keysAreEqual := fun k k' => k % 4 == k' % 4
  numBucket_pos := by decide

theorem lawful_moduloFour : moduloFour.Lawful where
  equality := ⟨by simp [moduloFour], by simp [moduloFour]; intros; omega,
    by simp [moduloFour]; intros; omega⟩
  hashFn_eq := by simp [moduloFour]

/-- Two collisions and a replacement by an equal key. -/
theorem hash_map_refines_finite_map_moduloFour :
    (after moduloFour [.set 1 10, .set 3 30, .set 5 50, .erase 3]).get 1 = some 50 ∧
      (after moduloFour [.set 1 10, .set 3 30, .set 5 50, .erase 3]).size =
        ∑ i, ((after moduloFour
          [.set 1 10, .set 3 30, .set 5 50, .erase 3]).chain i).length :=
  ⟨by decide, (hash_map_refines_finite_map lawful_moduloFour
    [.set 1 10, .set 3 30, .set 5 50, .erase 3]).2.2.2.2.1⟩

end HashMap

end Osi
