import Mathlib.Data.List.Basic
import Mathlib.Data.Nat.ModEq

/-!
# Circular windows

A circular buffer of `n` cells is read from a starting cell onwards, wrapping
at the end: `window cells n h k` are the `k` elements read from the cell `h`.
Taking elements away from the front of a window moves its start, and writing
the cell just behind a window that does not yet cover the whole circle appends
to it.
-/

namespace Collection

variable {α : Type*} {n h k j : ℕ}

/-- The `k` elements read from the cell `h` onwards, around a circle of `n`
cells. -/
def window (cells : ℕ → α) (n h k : ℕ) : List α :=
  (List.range k).map fun i => cells ((h + i) % n)

@[simp] theorem window_zero (cells : ℕ → α) (n h : ℕ) : window cells n h 0 = [] := rfl

@[simp] theorem length_window (cells : ℕ → α) (n h k : ℕ) :
    (window cells n h k).length = k := by simp [window]

theorem window_succ (cells : ℕ → α) (n h k : ℕ) :
    window cells n h (k + 1) = window cells n h k ++ [cells ((h + k) % n)] := by
  simp [window, List.range_succ]

theorem window_cons (cells : ℕ → α) (n h k : ℕ) :
    window cells n h (k + 1) = cells (h % n) :: window cells n (h + 1) k := by
  simp only [window, List.range_succ_eq_map, List.map_cons, List.map_map, Nat.add_zero]
  congr 2
  funext i
  simp [Nat.add_assoc, Nat.add_comm 1 i]

/-- Only the cell the window starts at matters, not the number of turns. -/
theorem window_mod (cells : ℕ → α) (n h k : ℕ) :
    window cells n (h % n) k = window cells n h k := by
  simp [window]

theorem window_drop (cells : ℕ → α) (n h k j : ℕ) :
    (window cells n h k).drop j = window cells n (h + j) (k - j) := by
  induction j generalizing h k with
  | zero => simp
  | succ j ih =>
      cases k with
      | zero => simp
      | succ k =>
          rw [window_cons, List.drop_succ_cons, ih, Nat.succ_sub_succ,
            Nat.add_assoc, Nat.add_comm 1 j]

theorem window_take (cells : ℕ → α) (n h k j : ℕ) :
    (window cells n h k).take j = window cells n h (min j k) := by
  rw [window, ← List.map_take, List.take_range, window]

/-- Less than a full turn apart, two offsets from one start are two cells. -/
theorem offset_injective {i : ℕ} (hij : i < j) (hj : j < n) :
    (h + i) % n ≠ (h + j) % n := by
  intro heq
  have hmod : i % n = j % n := Nat.ModEq.add_left_cancel' h heq
  rw [Nat.mod_eq_of_lt hj, Nat.mod_eq_of_lt (hij.trans hj)] at hmod
  omega

/-- Writing the cell behind a window that leaves room appends to it. -/
theorem window_update (cells : ℕ → α) (x : α) (hk : k < n) :
    window (Function.update cells ((h + k) % n) x) n h (k + 1) =
      window cells n h k ++ [x] := by
  rw [window_succ, Function.update_self]
  congr 1
  apply List.map_congr_left
  intro i hi
  rw [List.mem_range] at hi
  exact Function.update_of_ne (offset_injective hi hk) _ _

end Collection
