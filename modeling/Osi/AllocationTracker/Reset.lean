import Osi.AllocationTracker.LiveSet
import Osi.HashMap.Clear

/-!
# Resetting the tracker

`allocation_tracker_reset` and `allocation_tracker_uninit` release the records of all
blocks, also of those that are in use. The hash map that `allocation_tracker_reset`
leaves counts more entries than it has, but the tracker never asks how many there are:
it works as it would with the right count.
-/

namespace Osi

open Memory

namespace AllocationTracker

variable {t t' : Tracker} {live : List Block} {ptr : Addr}

def reset (t : Tracker) : Option Tracker :=
  match t.allocations with
  | none => some t
  | some m => do
      let records ← freeRecords t.records m.clear.2
      return { t with records := records, allocations := some m.clear.1 }

def uninit (t : Tracker) : Option Tracker :=
  match t.allocations with
  | none => some t
  | some m => do
      let records ← freeRecords t.records m.clear.2
      return { t with records := records, allocations := none }

def shift (n : ℕ) (t : Tracker) : Tracker :=
  { t with allocations := t.allocations.map (HashMap.shift n) }

/-! ## The counter is not looked at -/

theorem notifyAlloc_shift (n : ℕ) (t : Tracker) (allocatorId : UInt8) (ptr : Addr)
    (size : UInt64) (record : Addr) :
    notifyAlloc (shift n t) allocatorId ptr size record =
      (notifyAlloc t allocatorId ptr size record).map fun r => (shift n r.1, r.2) := by
  cases hm : t.allocations with
  | none => simp [notifyAlloc, shift, hm]
  | some m =>
      have hget : ∀ key, (HashMap.shift n m).get key = m.get key := fun _ => rfl
      by_cases hptr : ptr = 0
      · simp [notifyAlloc, shift, hm, hptr]
      · cases hfound : m.get (ptr + canarySize) with
        | none =>
            cases halloc : alloc t.records record ⟨0, 0, 0, false⟩ with
            | none => simp [notifyAlloc, shift, hm, hptr, hget, hfound, halloc]
            | some records =>
                cases hstore : store records record
                    ⟨allocatorId, ptr + canarySize, size, false⟩ <;>
                  simp [notifyAlloc, shift, hm, hptr, hget, hfound, halloc, hstore,
                    HashMap.set_shift]
        | some allocation =>
            cases hload : load t.records allocation with
            | none => simp [notifyAlloc, shift, hm, hptr, hget, hfound, hload]
            | some a =>
                cases hfreed : a.freed with
                | false => simp [notifyAlloc, shift, hm, hptr, hget, hfound, hload, hfreed]
                | true =>
                    cases hstore : store t.records allocation
                        ⟨allocatorId, ptr + canarySize, size, false⟩ <;>
                      simp [notifyAlloc, shift, hm, hptr, hget, hfound, hload, hfreed, hstore]

theorem notifyFree_shift (n : ℕ) {m : HashMap params Addr} (hm : t.allocations = some m)
    (hcounted : m.Counted) (allocatorId : UInt8) (ptr : Addr) :
    notifyFree (shift n t) allocatorId ptr =
      (notifyFree t allocatorId ptr).map fun r => (shift n r.1, r.2) := by
  have hget : ∀ key, (HashMap.shift n m).get key = m.get key := fun _ => rfl
  have herase := hcounted.erase_shift n ptr
  by_cases hptr : ptr = 0
  · simp [notifyFree, shift, hm, hptr]
  · cases hfound : m.get ptr with
    | none => simp [notifyFree, shift, hm, hptr, hget, hfound]
    | some allocation =>
        cases hload : load t.records allocation with
        | none => simp [notifyFree, shift, hm, hptr, hget, hfound, hload]
        | some a =>
            by_cases hcheck : a.freed = true ∨ a.allocatorId ≠ allocatorId
            · simp [notifyFree, shift, hm, hptr, hget, hfound, hload, hcheck]
            · cases hstore : store t.records allocation { a with freed := true } with
              | none => simp [notifyFree, shift, hm, hptr, hget, hfound, hload, hcheck, hstore]
              | some records =>
                  cases hintact : canariesIntact t.bytes (ptr - canarySize) (ptr + a.size) with
                  | false =>
                      simp [notifyFree, shift, hm, hptr, hget, hfound, hload, hcheck, hstore,
                        hintact]
                  | true =>
                      cases hrelease : freeRecords records (m.erase ptr).2.1 <;>
                        simp [notifyFree, shift, hm, hptr, hget, hfound, hload, hcheck, hstore,
                          hintact, herase, hrelease]

theorem counted_of_wellformed {m : HashMap params Addr} (h : m.Wellformed) : m.Counted :=
  h.hashSize_eq.ge

/-- The canaries of a new block leave alone what was requested. -/
theorem memcpy_requested {b : Block} {bytes : Addr → UInt8} {a : Addr} (h : b.Fits)
    (ha : b.requested.Contains a.toNat) :
    memcpy (memcpy bytes (b.ptr - canarySize) canary) (b.ptr + b.size) canary a = bytes a := by
  have hle := h.le
  have hend : (b.ptr + b.size).toNat = b.start.toNat + 8 + b.size.toNat := by
    rw [UInt64.toNat_add, h.ptr_toNat]
    omega
  change b.start.toNat + 8 ≤ a.toNat ∧ a.toNat < b.start.toNat + 8 + b.size.toNat at ha
  rw [b.ptr_sub, memcpy_of_not (by omega) (by omega), memcpy_of_not (by omega) (by omega)]

/-! ## The released records -/

/-- Records at different addresses can be released one after the other. -/
theorem freeRecords_isSome {l : List (HashMapEntry Addr Addr)} {records : Heap AllocationT}
    (hnodup : (l.map HashMapEntry.data).Nodup) (hsome : ∀ e ∈ l, (records e.data).isSome) :
    ∃ records', freeRecords records l = some records' := by
  induction l generalizing records with
  | nil => exact ⟨records, rfl⟩
  | cons e l ih =>
      rw [List.map_cons, List.nodup_cons] at hnodup
      obtain ⟨a, ha⟩ := Option.isSome_iff_exists.mp (hsome e List.mem_cons_self)
      have hrest : ∀ e' ∈ l, (Function.update records e.data none e'.data).isSome := by
        intro e' he'
        have hne : e'.data ≠ e.data := by
          intro heq
          exact hnodup.1 (heq ▸ List.mem_map_of_mem he')
        rw [Function.update_of_ne hne]
        exact hsome e' (List.mem_cons_of_mem e he')
      obtain ⟨records', hrecords'⟩ := ih hnodup.2 hrest
      refine ⟨records', ?_⟩
      simp [freeRecords, free_eq ha, hrecords']

theorem clear_of_records {m : HashMap params Addr} (h : Records t live m) (n : ℕ) :
    ∃ records, freeRecords t.records (HashMap.shift n m).clear.2 = some records ∧
      (HashMap.shift n m).clear.1 = HashMap.shift (m.hashSize + n) HashMap.new := by
  have hentries : ∀ e ∈ m.entries, (t.records e.data).isSome := by
    intro e he
    have hentry := h.perm.mem_iff.mp (List.mem_map_of_mem he)
    obtain ⟨b, -, heq⟩ := List.mem_map.mp hentry
    rw [← (Prod.mk.inj heq).2]
    rfl
  obtain ⟨records, hrecords⟩ := freeRecords_isSome h.nodup hentries
  have hreleased : (HashMap.shift n m).clear.2 = m.entries := by
    simp only [HashMap.clear, HashMap.entries, HashMap.shift]
  have hclear : (HashMap.shift n m).clear.1 = HashMap.shift (m.hashSize + n) HashMap.new := by
    simp only [HashMap.clear, HashMap.shift, HashMap.new, Nat.zero_add]
  exact ⟨records, by rw [hreleased, hrecords], hclear⟩

theorem invariant_new (t : Tracker) :
    Invariant { tracker := { t with allocations := some HashMap.new }, live := [] } where
  records := by
    have hempty : (HashMap.new : HashMap params Addr).entries = [] := by
      simp [HashMap.entries, HashMap.new]
    refine ⟨HashMap.new, rfl, HashMap.wellformed_new, ?_, ?_⟩
    · rw [hempty]
      exact List.nodup_nil
    · rw [hempty]
      exact List.Perm.refl []
  fits b hb := by cases hb
  disjoint := List.Pairwise.nil

end AllocationTracker

end Osi
