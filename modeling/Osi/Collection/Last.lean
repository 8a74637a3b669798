import Mathlib.Data.List.Induction
import Mathlib.Algebra.Order.Ring.Nat

/-!
# The last element with a property

A log is a list that only grows at its end. `IsLast p l n x` says that `x`, at
the position `n`, is the last element of `l` that has the property `p`. The
lemmas follow the log through one more entry; a statement about the entries
before a position `j` is a statement about `l.take j`, which further entries do
not change.
-/

namespace Collection

variable {α : Type*} {p p' : α → Prop} {l : List α} {x y : α} {n m j : ℕ}

theorem getElem?_concat_iff :
    (l ++ [x])[n]? = some y ↔ l[n]? = some y ∨ (n = l.length ∧ x = y) := by
  rcases lt_trichotomy n l.length with hlt | rfl | hgt
  · rw [List.getElem?_append_left hlt]
    simp [hlt.ne]
  · simp
  · rw [List.getElem?_eq_none (by simp; omega), List.getElem?_eq_none (by omega)]
    simp [hgt.ne']

theorem lt_length_of_getElem? (h : l[n]? = some x) : n < l.length :=
  (List.getElem?_eq_some_iff.mp h).1

theorem getElem?_take_iff :
    (l.take j)[n]? = some x ↔ l[n]? = some x ∧ n < j := by
  rw [List.getElem?_take]
  by_cases hn : n < j <;> simp [hn]

theorem take_concat (hj : j ≤ l.length) : (l ++ [x]).take j = l.take j :=
  List.take_append_of_le_length hj

def IsLast (p : α → Prop) (l : List α) (n : ℕ) (x : α) : Prop :=
  l[n]? = some x ∧ p x ∧ ∀ m y, n < m → l[m]? = some y → ¬ p y

namespace IsLast

theorem get (h : IsLast p l n x) : l[n]? = some x := h.1

theorem lt_length (h : IsLast p l n x) : n < l.length := lt_length_of_getElem? h.1

theorem le_of_getElem? (h : IsLast p l n x) (hy : l[m]? = some y) (hp : p y) :
    m ≤ n := by
  by_contra hlt
  exact h.2.2 m y (by omega) hy hp

theorem unique (h : IsLast p l n x) (h' : IsLast p l m y) : n = m ∧ x = y := by
  have hnm : n = m := le_antisymm (h'.le_of_getElem? h.1 h.2.1)
    (h.le_of_getElem? h'.1 h'.2.1)
  subst hnm
  exact ⟨rfl, Option.some.inj (h.1.symm.trans h'.1)⟩

theorem concat_self (hp : p x) : IsLast p (l ++ [x]) l.length x := by
  refine ⟨by simp, hp, ?_⟩
  intro m y hm hy
  have := lt_length_of_getElem? hy
  simp at this
  omega

theorem concat_iff_of_not (hp : ¬ p y) :
    IsLast p (l ++ [y]) n x ↔ IsLast p l n x := by
  constructor
  · rintro ⟨hget, hx, hafter⟩
    rcases getElem?_concat_iff.mp hget with hget | ⟨_, rfl⟩
    · refine ⟨hget, hx, ?_⟩
      intro m z hm hz
      exact hafter m z hm (getElem?_concat_iff.mpr (Or.inl hz))
    · exact absurd hx hp
  · rintro ⟨hget, hx, hafter⟩
    refine ⟨getElem?_concat_iff.mpr (Or.inl hget), hx, ?_⟩
    intro m z hm hz
    rcases getElem?_concat_iff.mp hz with hz | ⟨_, rfl⟩
    · exact hafter m z hm hz
    · exact hp

theorem concat_iff_of (hp : p y) :
    IsLast p (l ++ [y]) n x ↔ n = l.length ∧ y = x := by
  constructor
  · intro h
    obtain ⟨hn, hx⟩ := h.unique (concat_self hp)
    exact ⟨hn, hx.symm⟩
  · rintro ⟨rfl, rfl⟩
    exact concat_self hp

theorem not_of_concat (h : IsLast p (l ++ [y]) n x) (hn : n < l.length) : ¬ p y := by
  intro hp
  exact absurd ((concat_iff_of hp).mp h).1 hn.ne

theorem map_iff {β : Type*} {p : β → Prop} {f : α → β} {y : β} :
    IsLast p (l.map f) n y ↔ ∃ x, IsLast (fun a => p (f a)) l n x ∧ f x = y := by
  simp only [IsLast, List.getElem?_map, Option.map_eq_some_iff]
  constructor
  · rintro ⟨⟨x, hx, rfl⟩, hp, hafter⟩
    refine ⟨x, ⟨hx, hp, ?_⟩, rfl⟩
    intro m z hm hz
    exact hafter m (f z) hm ⟨z, hz, rfl⟩
  · rintro ⟨x, ⟨hx, hp, hafter⟩, rfl⟩
    refine ⟨⟨x, hx, rfl⟩, hp, ?_⟩
    rintro m _ hm ⟨z, hz, rfl⟩
    exact hafter m z hm hz

theorem exists_of_mem (hx : x ∈ l) (hp : p x) : ∃ n y, IsLast p l n y := by
  induction l using List.reverseRecOn with
  | nil => exact absurd hx List.not_mem_nil
  | append_singleton l z ih =>
      by_cases hz : p z
      · exact ⟨l.length, z, concat_self hz⟩
      · have hmem : x ∈ l := by
          rcases List.mem_append.mp hx with hx | hx
          · exact hx
          · exact absurd (List.mem_singleton.mp hx ▸ hp) hz
        obtain ⟨n, y, h⟩ := ih hmem
        exact ⟨n, y, (concat_iff_of_not hz).mpr h⟩

theorem of_drop (hx : l[n]? = some x) (hp : p x) (hdrop : ∀ y ∈ l.drop (n + 1), ¬ p y) :
    IsLast p l n x := by
  refine ⟨hx, hp, ?_⟩
  intro m y hm hy
  apply hdrop
  rw [List.mem_iff_getElem?]
  refine ⟨m - (n + 1), ?_⟩
  rw [List.getElem?_drop, Nat.add_sub_cancel' hm]
  exact hy

end IsLast

end Collection
