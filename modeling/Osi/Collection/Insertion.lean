import Mathlib.Data.List.Sort
import Mathlib.Data.List.Nodup

/-!
# Ordered insertion and removal of all occurrences

`List.orderedInsert r a` puts `a` before the first element `y` with `r a y`.
With a strict comparison `r` this is the stable insertion: `a` comes after the
elements it is equivalent to. The lemmas below say which relations a list keeps
along its order under such an insertion, without asking that `r` be total.
-/

namespace Collection

/-- A relation that holds along `l` still holds after inserting `a` before the
first element that `r a` selects, provided it holds between `a` and the
elements on either side and the selection is upward closed. -/
theorem pairwise_orderedInsert {α : Type*} {r R : α → α → Prop} [DecidableRel r]
    {a : α} {l : List α} (hl : l.Pairwise R)
    (hbefore : ∀ x ∈ l, ¬ r a x → R x a) (hafter : ∀ y ∈ l, r a y → R a y)
    (hup : ∀ x ∈ l, ∀ y ∈ l, R x y → r a x → r a y) :
    (l.orderedInsert r a).Pairwise R := by
  induction l with
  | nil => simp
  | cons x l ih =>
      rw [List.orderedInsert_cons]
      obtain ⟨hx, hl'⟩ := List.pairwise_cons.mp hl
      split
      · rename_i hsel
        refine List.pairwise_cons.mpr ⟨?_, hl⟩
        intro y hy
        rcases List.mem_cons.mp hy with rfl | hy'
        · exact hafter y List.mem_cons_self hsel
        · have hry : r a y := hup x List.mem_cons_self y hy (hx y hy') hsel
          exact hafter y hy hry
      · rename_i hnot
        refine List.pairwise_cons.mpr ⟨?_, ?_⟩
        · intro y hy
          rcases (List.mem_orderedInsert r).mp hy with rfl | hy'
          · exact hbefore x List.mem_cons_self hnot
          · exact hx y hy'
        · apply ih hl'
          · intro y hy
            exact hbefore y (List.mem_cons_of_mem x hy)
          · intro y hy
            exact hafter y (List.mem_cons_of_mem x hy)
          · intro y hy z hz
            exact hup y (List.mem_cons_of_mem x hy) z (List.mem_cons_of_mem x hz)

theorem nodup_orderedInsert {α : Type*} {r : α → α → Prop} [DecidableRel r]
    {a : α} {l : List α} (hl : l.Nodup) (ha : a ∉ l) :
    (l.orderedInsert r a).Nodup :=
  (List.perm_orderedInsert r a l).nodup_iff.mpr (List.nodup_cons.mpr ⟨ha, hl⟩)

/-- The head of a list after an insertion: the new element, or the old head. -/
theorem head?_orderedInsert {α : Type*} {r : α → α → Prop} [DecidableRel r]
    (a : α) (l : List α) :
    (l.orderedInsert r a).head? = some a ∨
      (l.orderedInsert r a).head? = l.head? := by
  cases l with
  | nil => exact Or.inl rfl
  | cons x l =>
      rw [List.orderedInsert_cons]
      split
      · exact Or.inl rfl
      · exact Or.inr rfl

/-- An insertion does not show among the elements that a filter selects, if the
filter does not select the new one. -/
theorem filter_orderedInsert_of_neg {α : Type*} {r : α → α → Prop} [DecidableRel r]
    {p : α → Bool} {a : α} (ha : ¬ p a) (l : List α) :
    (l.orderedInsert r a).filter p = l.filter p := by
  induction l with
  | nil => simp [ha]
  | cons x l ih =>
      rw [List.orderedInsert_cons]
      split
      · rw [List.filter_cons_of_neg ha]
      · rw [List.filter_cons, List.filter_cons, ih]

theorem filter_ne_erase {α : Type*} [DecidableEq α] (a : α) (l : List α) :
    (l.erase a).filter (· ≠ a) = l.filter (· ≠ a) := by
  induction l with
  | nil => rfl
  | cons x l ih =>
      by_cases hx : x = a
      · subst hx
        simp
      · rw [List.erase_cons_tail (by simpa using hx)]
        simpa [hx] using ih

end Collection
