import Osi.HashMap.Refinement.Iteration

/-!
# A `hash_map_set` that fails

`hash_map_set` has three allocations. Before the second one it has already removed the
entry it found, or counted the entry it is about to make, so only a failure of the first
one, the list of the bucket, leaves the map as it was.
-/

namespace Osi

open Collection

namespace HashMap

variable {κ δ : Type*} {P : HashMapParams κ}

/-- What a client can see of the map is the same before and after, and nothing was
released. -/
structure Untouched (m m' : HashMap P δ) (released : List (HashMapEntry κ δ)) : Prop where
  size : m'.size = m.size
  get : ∀ k, m'.get k = m.get k
  hasKey : ∀ k, m'.hasKey k = m.hasKey k
  foreach : ∀ (γ : Type) (callback : HashMapEntry κ δ → γ → γ × Bool) (context : γ),
    m'.foreach callback context = m.foreach callback context
  released : released = []

/-- A failed `hash_map_set` changes nothing. -/
def FailsCleanly (m : HashMap P δ) (a : Allocation) (key : κ) (data : δ) : Prop :=
  (m.set a key data).2.2 = false →
    Untouched m (m.set a key data).1 (m.set a key data).2.1

/-- From the search on a failure is not clean: the entry of the key is gone, or it is
counted and not there. -/
theorem not_untouched_setIn {m : HashMap P δ} {a : Allocation} {key : κ} {data : δ}
    {l : List (HashMapEntry κ δ)} (h : (a.entry && a.node) = false) :
    ¬ Untouched m (m.setIn a key data l).1 (m.setIn a key data l).2.1 := by
  intro huntouched
  have hsize := huntouched.size
  have hreleased := huntouched.released
  cases hfind : findBucketEntry (P := P) (some l) key with
  | some e => simp [setIn, hfind, h] at hreleased
  | none => simp [setIn, hfind, h, HashMap.size, setBucket] at hsize

theorem setIn_result (m : HashMap P δ) (a : Allocation) (key : κ) (data : δ)
    (l : List (HashMapEntry κ δ)) : (m.setIn a key data l).2.2 = (a.entry && a.node) := by
  unfold setIn
  cases a.entry && a.node <;> simp

theorem failsCleanly_setIn_iff {m : HashMap P δ} {a : Allocation} {key : κ} {data : δ}
    {l : List (HashMapEntry κ δ)} :
    ((m.setIn a key data l).2.2 = false →
      Untouched m (m.setIn a key data l).1 (m.setIn a key data l).2.1) ↔
      a.entry = true ∧ a.node = true := by
  rw [setIn_result, ← Bool.and_eq_true_iff]
  cases h : a.entry && a.node with
  | true => exact iff_of_true nofun rfl
  | false => exact iff_of_false (fun hclean => not_untouched_setIn h (hclean rfl)) nofun

/-- `hash_map_set` fails cleanly exactly when its entry and its node can be allocated, so
that it fails at most for the list, or when the list is missing and cannot be allocated. -/
theorem set_failsCleanly_iff (m : HashMap P δ) (a : Allocation) (key : κ) (data : δ) :
    FailsCleanly m a key data ↔
      a.entry = true ∧ a.node = true ∨
        m.bucket (P.hashKey key) = none ∧ a.list = false := by
  unfold FailsCleanly set
  cases hbucket : m.bucket (P.hashKey key) with
  | some l =>
    rw [failsCleanly_setIn_iff]
    exact (or_iff_left (by simp)).symm
  | none =>
    cases hlist : a.list with
    | true =>
      simp only [if_true]
      rw [failsCleanly_setIn_iff]
      exact (or_iff_left (by simp)).symm
    | false =>
      refine iff_of_true (fun _ => ?_) (.inr ⟨rfl, rfl⟩)
      exact ⟨rfl, fun _ => rfl, fun _ => rfl, fun _ _ _ => rfl, rfl⟩

/-- No memory for the entry. -/
def noEntry : Allocation where
  list := true
  entry := false
  node := true

/-- One entry is replaced without memory for the new one: the old one is released and the
key is not there any more, though the size still counts it. A new key is counted though it
is not there. -/
theorem set_loses_entry :
    ¬ FailsCleanly (after moduloFour [.set 1 10]) noEntry 1 20 ∧
      ((after moduloFour [.set 1 10]).set noEntry 1 20).2.2 = false ∧
      (after moduloFour [.set 1 10]).get 1 = some 10 ∧
      ((after moduloFour [.set 1 10]).set noEntry 1 20).1.get 1 = none ∧
      ((after moduloFour [.set 1 10]).set noEntry 1 20).1.size = 1 ∧
      ((after moduloFour [.set 1 10]).set noEntry 1 20).2.1 = [⟨1, 10⟩] ∧
      ((after moduloFour [.set 1 10]).set noEntry 2 20).1.size = 2 := by
  refine ⟨fun hclean => ?_, by decide, by decide, by decide, by decide, by decide, by decide⟩
  have hreleased := (hclean (by decide)).released
  revert hreleased
  decide

end HashMap

end Osi
