import Mathlib.Data.List.Nodup
import Mathlib.Data.List.Range
import Mathlib.Algebra.BigOperators.Group.List.Basic
import Mathlib.Algebra.GroupWithZero.Nat

/-!
# Extents

An extent is a range of addresses. Extents that do not overlap and lie below a
bound have together at most as many addresses as there are below it.
-/

namespace Memory

structure Extent where
  start : ℕ
  len : ℕ
  deriving DecidableEq, Repr

namespace Extent

def Contains (e : Extent) (a : ℕ) : Prop := e.start ≤ a ∧ a < e.start + e.len

instance (e : Extent) (a : ℕ) : Decidable (e.Contains a) :=
  inferInstanceAs (Decidable (_ ∧ _))

/-- The extents do not overlap. -/
def Disjoint (e e' : Extent) : Prop :=
  e.start + e.len ≤ e'.start ∨ e'.start + e'.len ≤ e.start

instance (e e' : Extent) : Decidable (e.Disjoint e') :=
  inferInstanceAs (Decidable (_ ∨ _))

theorem Disjoint.symm {e e' : Extent} (h : e.Disjoint e') : e'.Disjoint e := Or.symm h

theorem Disjoint.not_contains {e e' : Extent} {a : ℕ} (h : e.Disjoint e')
    (ha : e.Contains a) : ¬ e'.Contains a := by
  unfold Disjoint at h
  unfold Contains at ha ⊢
  omega

def addresses (e : Extent) : List ℕ := List.range' e.start e.len

theorem mem_addresses {e : Extent} {a : ℕ} : a ∈ e.addresses ↔ e.Contains a := by
  rw [addresses, List.mem_range'_1]
  rfl

theorem nodup_addresses {l : List Extent} (h : l.Pairwise Disjoint) :
    (l.flatMap addresses).Nodup := by
  refine List.nodup_flatMap.mpr ⟨fun e _ => List.nodup_range', h.imp ?_⟩
  intro e e' hdisjoint a ha ha'
  exact hdisjoint.not_contains (mem_addresses.mp ha) (mem_addresses.mp ha')

theorem sum_len_le {l : List Extent} {n : ℕ} (h : l.Pairwise Disjoint)
    (hle : ∀ e ∈ l, e.start + e.len ≤ n) : (l.map len).sum ≤ n := by
  have hsub : l.flatMap addresses ⊆ List.range n := by
    intro a ha
    obtain ⟨e, he, ha⟩ := List.mem_flatMap.mp ha
    exact List.mem_range.mpr (Nat.lt_of_lt_of_le (mem_addresses.mp ha).2 (hle e he))
  have hlength := (List.subperm_of_subset (nodup_addresses h) hsub).length_le
  rw [List.length_flatMap, List.length_range] at hlength
  have hmap : l.map (fun e => e.addresses.length) = l.map len :=
    List.map_congr_left fun e _ => List.length_range'
  rwa [hmap] at hlength

end Extent

end Memory
