import Mathlib.Data.List.Nodup
import Mathlib.Data.UInt
import Mathlib.Logic.Function.Basic

/-!
# A heap of objects

A heap gives each address the object that is allocated there, if any. Addresses
are 64-bit words and `0` is `NULL`. Access to an address where nothing is
allocated is a fault, `none`: reading or writing a released object, releasing it
again, and dereferencing `NULL` all fail. The allocator is not modelled; it may
hand out any address but `NULL` and those in use, in particular one that was
released.

There are fewer than `2 ^ 64` objects, so a `size_t` can count any of them.
-/

namespace Memory

abbrev Addr := UInt64

abbrev Heap (α : Type*) := Addr → Option α

variable {α : Type*} {heap heap' : Heap α} {p q : Addr} {x : α}

def load (heap : Heap α) (p : Addr) : Option α := heap p

def store (heap : Heap α) (p : Addr) (x : α) : Option (Heap α) :=
  if (heap p).isSome then some (Function.update heap p (some x)) else none

def alloc (heap : Heap α) (p : Addr) (x : α) : Option (Heap α) :=
  if p ≠ 0 ∧ heap p = none then some (Function.update heap p (some x)) else none

def free (heap : Heap α) (p : Addr) : Option (Heap α) :=
  if (heap p).isSome then some (Function.update heap p none) else none

theorem store_eq {y : α} (h : heap p = some y) :
    store heap p x = some (Function.update heap p (some x)) := by
  simp [store, h]

theorem free_eq (h : heap p = some x) :
    free heap p = some (Function.update heap p none) := by
  simp [free, h]

theorem alloc_eq_some_iff :
    alloc heap p x = some heap' ↔
      (p ≠ 0 ∧ heap p = none) ∧ heap' = Function.update heap p (some x) := by
  unfold alloc
  split
  · rename_i h
    simp only [Option.some.injEq, h, not_false_eq_true, and_self, true_and, ne_eq, eq_comm]
  · rename_i h
    simp only [reduceCtorEq, h, false_and]

/-- Objects at different addresses, none of them at `NULL`, are fewer than the
values of a word. -/
theorem length_lt_of_nodup {l : List Addr} (h : l.Nodup) (h0 : 0 ∉ l) : l.length < 2 ^ 64 := by
  have hnodup : ((0 :: l).map UInt64.toNat).Nodup := by
    refine (List.nodup_cons.mpr ⟨h0, h⟩).map ?_
    intro a b hab
    exact UInt64.toNat_inj.mp hab
  have hsub : (0 :: l).map UInt64.toNat ⊆ List.range (2 ^ 64) := by
    intro n hn
    obtain ⟨a, _, rfl⟩ := List.mem_map.mp hn
    exact List.mem_range.mpr a.toNat_lt
  have hle := (List.subperm_of_subset hnodup hsub).length_le
  rw [List.length_map, List.length_cons, List.length_range] at hle
  exact hle

end Memory
