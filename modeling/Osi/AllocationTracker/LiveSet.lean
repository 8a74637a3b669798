import Osi.AllocationTracker.Basic
import Osi.HashMap.Refinement.Iteration
import Mathlib.Algebra.BigOperators.Group.List.Lemmas
import Mathlib.Data.List.GetD

/-!
# The tracker and the live blocks

In every state that is reached, whatever the clients free and write, the records
that the map leads to are those of the live blocks, one for each. So the tracker
knows exactly the live blocks: their sizes, and which pointers may be freed by
which allocator. The bytes of the canaries are looked at only when a block is freed;
they are intact as long as the clients stay inside what they requested.
-/

namespace Osi

open Memory Transition

namespace AllocationTracker

variable {s s' : State} {t t' : Tracker} {bytes bytes' : Addr → UInt8} {b b' : Block}
  {a ptr : Addr} {allocatorId : UInt8} {size : UInt64}

theorem lawful_params : params.Lawful where
  equality := ⟨fun _ => beq_self_eq_true _, fun h => beq_iff_eq.mpr (eq_of_beq h).symm,
    fun h h' => beq_iff_eq.mpr ((eq_of_beq h).trans (eq_of_beq h'))⟩
  hashFn_eq := fun k k' h => by rw [eq_of_beq h]

namespace Block

def record (b : Block) : AllocationT where
  allocatorId := b.allocatorId
  ptr := b.ptr
  size := b.size
  freed := false

/-- The block is not at `NULL`, and does not wrap. -/
def Fits (b : Block) : Prop := b.start ≠ 0 ∧ b.extent.start + b.extent.len ≤ 2 ^ 64

theorem Fits.le (h : b.Fits) : b.start.toNat + b.size.toNat + 16 ≤ 2 ^ 64 := by
  have hle := h.2
  change b.start.toNat + (b.size.toNat + 16) ≤ 2 ^ 64 at hle
  omega

theorem Fits.ptr_toNat (h : b.Fits) : b.ptr.toNat = b.start.toNat + 8 := by
  have hle := h.le
  rw [ptr, UInt64.toNat_add]
  exact Nat.mod_eq_of_lt (by change _ + 8 < _; omega)

theorem Fits.ptr_ne_zero (h : b.Fits) : b.ptr ≠ 0 := by
  intro hzero
  have hptr := h.ptr_toNat
  rw [hzero, UInt64.toNat_zero] at hptr
  omega

theorem ptr_sub (b : Block) : b.ptr - canarySize = b.start := add_sub_cancel_right _ _

theorem start_ne_of_disjoint (h : b.extent.Disjoint b'.extent) : b.start ≠ b'.start := by
  intro heq
  change b.start.toNat + (b.size.toNat + 16) ≤ b'.start.toNat ∨
    b'.start.toNat + (b'.size.toNat + 16) ≤ b.start.toNat at h
  rw [heq] at h
  omega

theorem contains_start (b : Block) : b.extent.Contains b.start.toNat := by
  change b.start.toNat ≤ b.start.toNat ∧ b.start.toNat < b.start.toNat + (b.size.toNat + 16)
  omega

theorem contains_of_requested {n : ℕ} (h : b.requested.Contains n) : b.extent.Contains n := by
  change b.start.toNat + 8 ≤ n ∧ n < b.start.toNat + 8 + b.size.toNat at h
  change b.start.toNat ≤ n ∧ n < b.start.toNat + (b.size.toNat + 16)
  omega

theorem ptr_inj : b.ptr = b'.ptr ↔ b.start = b'.start := add_left_inj canarySize

end Block

/-! ### Canaries -/

def Intact (bytes : Addr → UInt8) (b : Block) : Prop :=
  ∀ i < canarySize.toNat, bytes (b.start + UInt64.ofNat i) = canary.getD i 0 ∧
    bytes (b.ptr + b.size + UInt64.ofNat i) = canary.getD i 0

theorem canariesIntact_iff :
    canariesIntact bytes (b.ptr - canarySize) (b.ptr + b.size) = true ↔ Intact bytes b := by
  simp [canariesIntact, Intact, b.ptr_sub]

/-- The bytes of the canaries are in the block, and not among those requested. -/
theorem contains_canary (h : b.Fits) {i : ℕ} (hi : i < canarySize.toNat) :
    (b.start + UInt64.ofNat i).toNat = b.start.toNat + i ∧
      (b.ptr + b.size + UInt64.ofNat i).toNat = b.start.toNat + 8 + b.size.toNat + i := by
  have hle := h.le
  change i < 8 at hi
  have hofNat : (UInt64.ofNat i).toNat = i := by
    rw [UInt64.toNat_ofNat']
    exact Nat.mod_eq_of_lt (by omega)
  rw [UInt64.toNat_add, UInt64.toNat_add, UInt64.toNat_add, hofNat, h.ptr_toNat]
  exact ⟨by omega, by omega⟩

theorem Intact.congr (hintact : Intact bytes b) (h : b.Fits)
    (hbytes : ∀ a : Addr, b.extent.Contains a.toNat → ¬ b.requested.Contains a.toNat →
      bytes' a = bytes a) :
    Intact bytes' b := by
  intro i hi
  obtain ⟨hbegin, hend⟩ := contains_canary h hi
  change i < 8 at hi
  refine ⟨(hbytes _ ?_ ?_).trans (hintact i hi).1, (hbytes _ ?_ ?_).trans (hintact i hi).2⟩
  all_goals
    simp only [Extent.Contains, Block.extent, Block.requested, hbegin, hend,
      show canarySize.toNat = 8 from rfl]
    omega

theorem memcpy_self (bytes : Addr → UInt8) (dst : Addr) {i : ℕ} (hi : i < canarySize.toNat) :
    memcpy bytes dst canary (dst + UInt64.ofNat i) = canary.getD i 0 := by
  change i < 8 at hi
  have hofNat : (UInt64.ofNat i).toNat = i := by
    rw [UInt64.toNat_ofNat']
    exact Nat.mod_eq_of_lt (by omega)
  have hlength : i < canary.length := hi
  rw [memcpy, add_sub_cancel_left, hofNat, List.getD_eq_getElem _ _ hlength,
    List.getD_eq_getElem _ _ hlength]

theorem memcpy_of_not {dst : Addr} (hdst : dst.toNat + 8 ≤ 2 ^ 64)
    (ha : a.toNat < dst.toNat ∨ dst.toNat + 8 ≤ a.toNat) :
    memcpy bytes dst canary a = bytes a := by
  refine List.getD_eq_default _ _ ?_
  change 8 ≤ (a - dst).toNat
  have halt := a.toNat_lt
  rw [UInt64.toNat_sub]
  omega

/-- The canaries of a new block are written, and nothing outside the block. -/
theorem intact_new (bytes : Addr → UInt8) (h : b.Fits) :
    Intact (memcpy (memcpy bytes (b.ptr - canarySize) canary) (b.ptr + b.size) canary) b ∧
      ∀ a : Addr, ¬ b.extent.Contains a.toNat →
        memcpy (memcpy bytes (b.ptr - canarySize) canary) (b.ptr + b.size) canary a =
          bytes a := by
  have hle := h.le
  have hend : (b.ptr + b.size).toNat = b.start.toNat + 8 + b.size.toNat := by
    rw [UInt64.toNat_add, h.ptr_toNat]
    omega
  rw [b.ptr_sub]
  refine ⟨fun i hi => ⟨?_, memcpy_self _ _ hi⟩, fun a ha => ?_⟩
  · obtain ⟨hbegin, -⟩ := contains_canary h hi
    change i < 8 at hi
    rw [memcpy_of_not (by omega) (by omega), memcpy_self _ _ hi]
  · change ¬ (b.start.toNat ≤ a.toNat ∧ a.toNat < b.start.toNat + (b.size.toNat + 16)) at ha
    rw [memcpy_of_not (by omega) (by omega), memcpy_of_not (by omega) (by omega)]

/-! ### The records -/

structure Records (t : Tracker) (live : List Block) (m : HashMap params Addr) : Prop where
  allocations : t.allocations = some m
  wellformed : m.Wellformed
  nodup : (m.entries.map HashMapEntry.data).Nodup
  perm : (m.entries.map fun e => (e.key, t.records e.data)).Perm
    (live.map fun b => (b.ptr, some b.record))

structure Invariant (s : State) : Prop where
  records : ∃ m, Records s.tracker s.live m
  fits : ∀ b ∈ s.live, b.Fits
  disjoint : s.live.Pairwise fun b b' => b.extent.Disjoint b'.extent

theorem invariant_start : Invariant (start bytes) where
  records := by
    have hempty : (HashMap.new : HashMap params Addr).entries = [] := by
      simp [HashMap.entries, HashMap.new]
    refine ⟨HashMap.new, rfl, HashMap.wellformed_new, ?_, ?_⟩
    · rw [hempty]
      exact List.nodup_nil
    · rw [hempty]
      exact List.Perm.refl []
  fits b hb := by cases hb
  disjoint := List.Pairwise.nil

theorem Invariant.nodup (hinv : Invariant s) : s.live.Nodup := by
  refine hinv.disjoint.imp fun {b b'} hdisjoint heq => ?_
  exact Block.start_ne_of_disjoint hdisjoint (congrArg Block.start heq)

/-- Live blocks with a common address are the same. -/
theorem Invariant.eq_of_contains {n : ℕ} (hinv : Invariant s) (hb : b ∈ s.live)
    (hb' : b' ∈ s.live) (h : b.extent.Contains n) (h' : b'.extent.Contains n) : b = b' := by
  have hsymm : Std.Symm fun b b' : Block => b.extent.Disjoint b'.extent :=
    ⟨fun _ _ hdisjoint => hdisjoint.symm⟩
  by_contra hne
  exact (hinv.disjoint.forall hb hb' hne).not_contains h h'

theorem Invariant.eq_of_ptr_eq (hinv : Invariant s) (hb : b ∈ s.live) (hb' : b' ∈ s.live)
    (hptr : b.ptr = b'.ptr) : b = b' := by
  refine hinv.eq_of_contains hb hb' b.contains_start ?_
  rw [Block.ptr_inj.mp hptr]
  exact b'.contains_start

def allocated (t : Tracker) (m : HashMap params Addr) (b : Block) (record : Addr) : Tracker where
  bytes := memcpy (memcpy t.bytes (b.ptr - canarySize) canary) (b.ptr + b.size) canary
  records := Function.update t.records record (some b.record)
  allocations := some (m.set .succeeding b.ptr record).1

def released (t : Tracker) (m : HashMap params Addr) (b : Block)
    (e : HashMapEntry Addr Addr) : Tracker where
  bytes := t.bytes
  records := Function.update t.records e.data none
  allocations := some (m.erase b.ptr).1

namespace Records

variable {live : List Block} {m : HashMap params Addr}

/-- The pointer of a live block leads to its record. -/
theorem get_eq_some (hrec : Records t live m) (hb : b ∈ live) :
    ∃ e, m.find b.ptr = some e ∧ e.key = b.ptr ∧ t.records e.data = some b.record := by
  have hmem := hrec.perm.mem_iff.mpr (List.mem_map_of_mem hb)
  obtain ⟨e, he, heq⟩ := List.mem_map.mp hmem
  obtain ⟨hkey, hrecord⟩ := Prod.mk.inj heq
  refine ⟨e, ?_, hkey, hrecord⟩
  rw [hrec.wellformed.find_eq_some_iff lawful_params]
  exact ⟨he, beq_iff_eq.mpr hkey⟩

theorem find_eq_none (hrec : Records t live m) (hptr : ∀ b ∈ live, b.ptr ≠ ptr) :
    m.find ptr = none := by
  refine Option.eq_none_iff_forall_ne_some.mpr fun e he => ?_
  obtain ⟨hmem, hkey⟩ := (hrec.wellformed.find_eq_some_iff lawful_params).mp he
  have hentry := hrec.perm.mem_iff.mp (List.mem_map_of_mem hmem)
  obtain ⟨b, hb, heq⟩ := List.mem_map.mp hentry
  exact hptr b hb ((Prod.mk.inj heq).1.trans (eq_of_beq hkey))

theorem data_ne (hrec : Records t live m) {e : HashMapEntry Addr Addr} (he : e ∈ m.entries)
    (ha : t.records a = none) : e.data ≠ a := by
  rintro rfl
  have hentry := hrec.perm.mem_iff.mp (List.mem_map_of_mem he)
  obtain ⟨b, -, heq⟩ := List.mem_map.mp hentry
  rw [ha] at heq
  cases (Prod.mk.inj heq).2

theorem add (hrec : Records t live m) {record : Addr} (hrecord : t.records record = none)
    (hfind : m.find b.ptr = none) :
    Records (allocated t m b record) (b :: live) (m.set .succeeding b.ptr record).1 := by
  have hperm := hrec.wellformed.perm_set lawful_params (d := record) hfind
  refine ⟨rfl, hrec.wellformed.set lawful_params _ _, ?_, ?_⟩
  · rw [(hperm.map _).nodup_iff, List.map_cons, List.nodup_cons]
    refine ⟨fun hmem => ?_, hrec.nodup⟩
    obtain ⟨e, he, hdata⟩ := List.mem_map.mp hmem
    exact hrec.data_ne he hrecord hdata
  · refine (hperm.map _).trans ?_
    have hself : (allocated t m b record).records record = some b.record :=
      Function.update_self ..
    rw [List.map_cons, List.map_cons, hself]
    refine List.Perm.cons _ ?_
    have hmap : m.entries.map (fun e => (e.key, (allocated t m b record).records e.data)) =
        m.entries.map fun e => (e.key, t.records e.data) := by
      refine List.map_congr_left fun e he => Prod.ext rfl ?_
      exact Function.update_of_ne (hrec.data_ne he hrecord) _ _
    rw [hmap]
    exact hrec.perm

/-- The record of a live block is taken out. -/
theorem erase (hrec : Records t (b :: live) m) {e : HashMapEntry Addr Addr}
    (he : m.find b.ptr = some e) (hrecord : t.records e.data = some b.record) :
    Records (released t m b e) live (m.erase b.ptr).1 := by
  have hperm := hrec.wellformed.perm_erase lawful_params he
  have hkey : e.key = b.ptr :=
    eq_of_beq ((hrec.wellformed.find_eq_some_iff lawful_params).mp he).2
  have hnodup := (hperm.map HashMapEntry.data).nodup_iff.mp hrec.nodup
  rw [List.map_cons, List.nodup_cons] at hnodup
  refine ⟨rfl, hrec.wellformed.erase _, hnodup.2, ?_⟩
  have hmap : (m.erase b.ptr).1.entries.map (fun e' =>
        (e'.key, (released t m b e).records e'.data)) =
      (m.erase b.ptr).1.entries.map fun e' => (e'.key, t.records e'.data) := by
    refine List.map_congr_left fun e' he' => Prod.ext rfl (Function.update_of_ne ?_ _ _)
    intro heq
    exact hnodup.1 (heq ▸ List.mem_map_of_mem he')
  rw [hmap]
  refine List.Perm.cons_inv (a := (b.ptr, some b.record)) ?_
  have hboth := (hperm.map _).symm.trans hrec.perm
  rwa [List.map_cons, List.map_cons, hkey, hrecord] at hboth

end Records

/-! ### New blocks -/

theorem Invariant.notifyAlloc_eq (hinv : Invariant s) {record : Addr}
    (havail : Available s b record) :
    ∃ t', notifyAlloc s.tracker b.allocatorId b.start b.size record = some (t', b.ptr) ∧
      t'.bytes =
        memcpy (memcpy s.tracker.bytes (b.ptr - canarySize) canary) (b.ptr + b.size) canary ∧
      ∃ m, Records t' (b :: s.live) m := by
  obtain ⟨m, hrec⟩ := hinv.records
  obtain ⟨hstart, hle, hdisjoint, hrecord0, hrecord⟩ := havail
  have hnew : ∀ b' ∈ s.live, b'.ptr ≠ b.ptr := by
    intro b' hb' heq
    exact Block.start_ne_of_disjoint (hdisjoint b' hb') (Block.ptr_inj.mp heq).symm
  have hfind := hrec.find_eq_none hnew
  have hget : m.get (b.start + canarySize) = none := by
    rw [HashMap.get_eq]
    change (m.find b.ptr).map _ = none
    rw [hfind]
    rfl
  refine ⟨allocated s.tracker m b record, ?_, rfl, _, hrec.add hrecord hfind⟩
  simp [notifyAlloc, allocated, hrec.allocations, hstart, hget, alloc, hrecord0, hrecord, store,
    Block.ptr, Block.record]

theorem Invariant.alloc (hinv : Invariant s) {record : Addr} (havail : Available s b record)
    (halloc : notifyAlloc s.tracker b.allocatorId b.start b.size record = some (t', ptr)) :
    Invariant { tracker := t', live := b :: s.live } := by
  obtain ⟨t'', heq, -, hrec⟩ := hinv.notifyAlloc_eq havail
  obtain ⟨rfl, -⟩ := Prod.mk.inj (Option.some.inj (halloc.symm.trans heq))
  refine ⟨hrec, ?_, ?_⟩
  · intro b' hb'
    rcases List.mem_cons.mp hb' with rfl | hb'
    · exact ⟨havail.1, havail.2.1⟩
    · exact hinv.fits b' hb'
  · exact List.pairwise_cons.mpr ⟨havail.2.2.1, hinv.disjoint⟩

/-! ### Freed blocks -/

theorem Invariant.notifyFree_live (hinv : Invariant s) (hb : b ∈ s.live)
    (allocatorId : UInt8) :
    ∃ t', notifyFree s.tracker allocatorId b.ptr =
        (if b.allocatorId = allocatorId ∧
            canariesIntact s.tracker.bytes (b.ptr - canarySize) (b.ptr + b.size) then
          some (t', b.start) else none) ∧
      t'.bytes = s.tracker.bytes ∧ ∃ m, Records t' (s.live.erase b) m := by
  obtain ⟨m, hrec⟩ := hinv.records
  obtain ⟨e, he, hkey, hrecord⟩ := hrec.get_eq_some hb
  have hget : m.get b.ptr = some e.data := by
    rw [HashMap.get_eq, he]
    rfl
  have hrec' : Records s.tracker (b :: s.live.erase b) m :=
    ⟨hrec.allocations, hrec.wellformed, hrec.nodup,
      hrec.perm.trans ((List.perm_cons_erase hb).map _)⟩
  refine ⟨released s.tracker m b e, ?_, rfl, _, hrec'.erase he hrecord⟩
  have hreleased : (m.erase b.ptr).2.1 = [e] := by
    rw [HashMap.erase_of_find_some he]
  have hptr := (hinv.fits b hb).ptr_ne_zero
  by_cases hid : b.allocatorId = allocatorId
  · by_cases hcanaries :
        canariesIntact s.tracker.bytes (b.ptr - canarySize) (b.ptr + b.size) = true
    · simp only [b.ptr_sub] at hcanaries
      simp [notifyFree, released, hrec.allocations, hptr, hget, load, hrecord, Block.record,
        hid, hcanaries, store_eq hrecord, hreleased, freeRecords, free, b.ptr_sub]
    · simp only [b.ptr_sub] at hcanaries
      simp [notifyFree, hrec.allocations, hptr, hget, load, hrecord, Block.record, hid,
        hcanaries, store_eq hrecord, b.ptr_sub]
  · simp [notifyFree, hrec.allocations, hptr, hget, load, hrecord, Block.record, hid]

theorem Invariant.notifyFree_other (hinv : Invariant s) (hptr0 : ptr ≠ 0)
    (hptr : ∀ b ∈ s.live, b.ptr ≠ ptr) : notifyFree s.tracker allocatorId ptr = none := by
  obtain ⟨m, hrec⟩ := hinv.records
  have hget : m.get ptr = none := by
    rw [HashMap.get_eq, hrec.find_eq_none hptr]
    rfl
  simp [notifyFree, hrec.allocations, hptr0, hget]

/-- The live blocks without the one that a pointer belongs to. -/
theorem Invariant.filter_eq_erase (hinv : Invariant s) (hb : b ∈ s.live) :
    s.live.filter (fun b' => b'.ptr ≠ b.ptr) = s.live.erase b := by
  rw [hinv.nodup.erase_eq_filter]
  refine List.filter_congr fun b' hb' => ?_
  rw [Bool.eq_iff_iff, decide_eq_true_iff, bne_iff_ne]
  refine not_congr ⟨fun hptr => hinv.eq_of_ptr_eq hb' hb hptr, fun heq => ?_⟩
  rw [heq]

theorem Invariant.free (hinv : Invariant s)
    (hfree : notifyFree s.tracker allocatorId ptr = some (t', a)) :
    t'.bytes = s.tracker.bytes ∧
      Invariant { tracker := t', live := s.live.filter fun b => b.ptr ≠ ptr } := by
  have hlive : (∃ m, Records t' (s.live.filter fun b => b.ptr ≠ ptr) m) →
      Invariant { tracker := t', live := s.live.filter fun b => b.ptr ≠ ptr } := by
    intro hrec
    refine ⟨hrec, ?_, hinv.disjoint.filter _⟩
    intro b hb
    exact hinv.fits b (List.mem_of_mem_filter hb)
  by_cases hptr : ∃ b ∈ s.live, b.ptr = ptr
  · obtain ⟨b, hb, rfl⟩ := hptr
    obtain ⟨t'', heq, hbytes, hrec⟩ := hinv.notifyFree_live hb allocatorId
    rw [hfree] at heq
    split_ifs at heq
    obtain ⟨rfl, -⟩ := Prod.mk.inj (Option.some.inj heq)
    refine ⟨hbytes, hlive ?_⟩
    rw [hinv.filter_eq_erase hb]
    exact hrec
  · push Not at hptr
    by_cases hptr0 : ptr = 0
    · -- freeing `NULL` does nothing
      obtain ⟨m, hrec⟩ := hinv.records
      obtain ⟨rfl, -⟩ : s.tracker = t' ∧ ptr = a := by
        simpa [notifyFree, hrec.allocations, hptr0] using hfree
      have hall : s.live.filter (fun b => b.ptr ≠ ptr) = s.live :=
        List.filter_eq_self.mpr fun b hb => decide_eq_true (hptr b hb)
      refine ⟨rfl, hlive ?_⟩
      rw [hall]
      exact ⟨m, hrec⟩
    · rw [hinv.notifyFree_other hptr0 hptr] at hfree
      cases hfree

/-! ### The sum of the sizes -/

/-- The sizes of the live blocks do not add up to more than a word holds. -/
theorem Invariant.sum_lt (hinv : Invariant s) :
    (s.live.map fun b => b.size.toNat).sum < 2 ^ 64 := by
  have hle : ((s.live.map Block.extent).map Extent.len).sum ≤ 2 ^ 64 := by
    refine Extent.sum_len_le (List.pairwise_map.mpr hinv.disjoint) ?_
    intro e he
    obtain ⟨b, hb, rfl⟩ := List.mem_map.mp he
    exact (hinv.fits b hb).2
  cases hlive : s.live with
  | nil => exact Nat.two_pow_pos 64
  | cons b live =>
    -- the canaries of one block leave room
    rw [hlive, List.map_map, List.map_cons, List.sum_cons] at hle
    have hrest : (live.map fun b => b.size.toNat).sum ≤
        (live.map (Extent.len ∘ Block.extent)).sum :=
      List.sum_le_sum fun b _ => Nat.le_add_right _ _
    rw [List.map_cons, List.sum_cons]
    change b.size.toNat + 16 + _ ≤ _ at hle
    omega

def unfreed (allocation : Option AllocationT) : UInt64 :=
  allocation.elim 0 fun a => if a.freed then 0 else a.size

/-- What the walk over the entries adds up. -/
theorem contextAfter_checker (t : Tracker) (l : List (HashMapEntry Addr Addr))
    (context : UInt64) :
    (HashMap.contextAfter (allocationEntryFreedChecker t) context l).toNat =
      (context.toNat + (l.map fun e => (unfreed (t.records e.data)).toNat).sum) % 2 ^ 64 := by
  induction l generalizing context with
  | nil => exact (Nat.mod_eq_of_lt context.toNat_lt).symm
  | cons e l ih =>
    have hfirst : (allocationEntryFreedChecker t e context).1 =
        context + unfreed (t.records e.data) := by
      cases hrecord : t.records e.data with
      | none => simp [allocationEntryFreedChecker, load, hrecord, unfreed]
      | some allocation =>
        cases hfreed : allocation.freed <;>
          simp [allocationEntryFreedChecker, load, hrecord, unfreed, hfreed]
    have hrest := ih (allocationEntryFreedChecker t e context).1
    rw [hfirst, UInt64.toNat_add, Nat.mod_add_mod, Nat.add_assoc, ← hfirst] at hrest
    rw [List.map_cons, List.sum_cons]
    exact hrest

theorem Invariant.expectNoAllocations_eq (hinv : Invariant s) :
    (expectNoAllocations s.tracker).toNat = (s.live.map fun b => b.size.toNat).sum := by
  obtain ⟨m, hrec⟩ := hinv.records
  have hunfreed : ∀ b : Block, unfreed (some b.record) = b.size := by
    intro b
    simp [unfreed, Block.record]
  have hperm := hrec.perm.map fun x => (unfreed x.2).toNat
  simp only [List.map_map, Function.comp_def, hunfreed] at hperm
  have hforeach : expectNoAllocations s.tracker =
      m.foreach (allocationEntryFreedChecker s.tracker) 0 := by
    rw [expectNoAllocations, hrec.allocations, Option.elim_some]
  rw [hforeach, HashMap.foreach_of_true _ (fun _ _ => rfl), contextAfter_checker, hperm.sum_eq,
    UInt64.toNat_zero, Nat.zero_add]
  exact Nat.mod_eq_of_lt hinv.sum_lt

/-! ### Runs -/

theorem step_cases {l : Label} (hstep : step s l = .ok s') :
    (∃ b record t' p, l = .alloc b.allocatorId b.start b.size record ∧ Available s b record ∧
      notifyAlloc s.tracker b.allocatorId b.start b.size record = some (t', p) ∧
      s' = { tracker := t', live := b :: s.live }) ∨
    (∃ allocatorId ptr t' p, l = .free allocatorId ptr ∧
      notifyFree s.tracker allocatorId ptr = some (t', p) ∧
      s' = { tracker := t', live := s.live.filter fun b => b.ptr ≠ ptr }) ∨
    (∃ a byte, l = .write a byte ∧
      s' = { s with tracker :=
        { s.tracker with bytes := Function.update s.tracker.bytes a byte } }) := by
  cases l with
  | alloc allocatorId ptr size record =>
    simp only [step] at hstep
    split_ifs at hstep with havail
    cases halloc : notifyAlloc s.tracker allocatorId ptr size record with
    | none => simp [halloc] at hstep
    | some r =>
      rw [halloc] at hstep
      exact .inl ⟨_, record, r.1, r.2, rfl, havail, halloc, (Except.ok.inj hstep).symm⟩
  | free allocatorId ptr =>
    simp only [step] at hstep
    cases hfree : notifyFree s.tracker allocatorId ptr with
    | none => simp [hfree] at hstep
    | some r =>
      rw [hfree] at hstep
      exact .inr (.inl ⟨allocatorId, ptr, r.1, r.2, rfl, hfree, (Except.ok.inj hstep).symm⟩)
  | write a byte => exact .inr (.inr ⟨a, byte, rfl, (Except.ok.inj hstep).symm⟩)

theorem Invariant.step {l : Label} (hinv : Invariant s) (hstep : step s l = .ok s') :
    Invariant s' := by
  obtain ⟨b, record, t', p, -, havail, halloc, rfl⟩ | ⟨allocatorId, ptr, t', p, -, hfree, rfl⟩ |
    ⟨a, byte, -, rfl⟩ := step_cases hstep
  · exact hinv.alloc havail halloc
  · exact (hinv.free hfree).2
  · -- a write does not change the records
    obtain ⟨m, hrec⟩ := hinv.records
    exact ⟨⟨m, hrec.allocations, hrec.wellformed, hrec.nodup, hrec.perm⟩, hinv.fits,
      hinv.disjoint⟩

theorem intact_step {l : Label} (hinv : Invariant s)
    (hintact : ∀ b ∈ s.live, Intact s.tracker.bytes b) (hproper : Proper s l)
    (hstep : step s l = .ok s') : ∀ b ∈ s'.live, Intact s'.tracker.bytes b := by
  obtain ⟨b, record, t', p, -, havail, halloc, rfl⟩ | ⟨allocatorId, ptr, t', p, -, hfree, rfl⟩ |
    ⟨a, byte, rfl, rfl⟩ := step_cases hstep
  · obtain ⟨t'', heq, hbytes, -⟩ := hinv.notifyAlloc_eq havail
    obtain ⟨rfl, -⟩ := Prod.mk.inj (Option.some.inj (halloc.symm.trans heq))
    have hfits : b.Fits := ⟨havail.1, havail.2.1⟩
    obtain ⟨hnew, hother⟩ := intact_new s.tracker.bytes hfits
    rw [← hbytes] at hnew hother
    intro b' hb'
    rcases List.mem_cons.mp hb' with rfl | hb'
    · exact hnew
    · refine (hintact b' hb').congr (hinv.fits b' hb') fun a ha _ => hother a ?_
      exact (havail.2.2.1 b' hb').symm.not_contains ha
  · intro b hb
    rw [(hinv.free hfree).1]
    exact hintact b (List.mem_of_mem_filter hb)
  · intro b hb
    refine (hintact b hb).congr (hinv.fits b hb) fun a' ha' hnot => ?_
    refine Function.update_of_ne ?_ _ _
    rintro rfl
    rcases hproper with ⟨b', hb', hinside⟩ | houtside
    · -- what was requested of one block is not in another one
      have heq := hinv.eq_of_contains hb hb' ha' (Block.contains_of_requested hinside)
      exact hnot (heq ▸ hinside)
    · exact houtside b hb ha'

theorem invariant_of_reachable (hreach : Reachable (Next step) (start bytes) s) : Invariant s :=
  hreach.invariant (fun _ _ _ hinv hstep => hinv.step hstep) invariant_start

theorem intact_of_reachable
    (hreach : Reachable (Guarded Proper (Next step)) (start bytes) s) :
    Invariant s ∧ ∀ b ∈ s.live, Intact s.tracker.bytes b := by
  refine hreach.invariant (I := fun s => Invariant s ∧ ∀ b ∈ s.live, Intact s.tracker.bytes b)
    ?_ ⟨invariant_start, fun b hb => by cases hb⟩
  rintro s l s' ⟨hinv, hintact⟩ ⟨hproper, hstep⟩
  exact ⟨hinv.step hstep, intact_step hinv hintact hproper hstep⟩

/-- A call that is proper, and that the underlying allocator allows, passes the
assertions. -/
theorem step_of_proper {l : Label} (hinv : Invariant s)
    (hintact : ∀ b ∈ s.live, Intact s.tracker.bytes b) (hproper : Proper s l) :
    step s l ≠ .error .assertion := by
  cases l with
  | alloc allocatorId ptr size record =>
    simp only [step]
    split_ifs with havail
    · obtain ⟨t', heq, -⟩ := hinv.notifyAlloc_eq havail
      rw [heq]
      exact nofun
    · exact nofun
  | free allocatorId ptr =>
    simp only [step]
    rcases hproper with rfl | ⟨b, hb, rfl, rfl⟩
    · obtain ⟨m, hrec⟩ := hinv.records
      simp [notifyFree, hrec.allocations]
    · obtain ⟨t', heq, -⟩ := hinv.notifyFree_live hb b.allocatorId
      rw [heq, if_pos ⟨rfl, canariesIntact_iff.mpr (hintact b hb)⟩]
      exact nofun
  | write a byte => exact nofun

/-- Whatever the clients free and write: the tracker reports the sum of the sizes of
the live blocks, it accepts every block of the underlying allocator, and `notify_free`
gives back the start of a live block with intact canaries to the allocator it is from,
and fails an assertion for everything else. No assertion fails as long as the clients
are proper. -/
theorem allocation_tracker_live_set (bytes : Addr → UInt8) :
    (∀ s, Reachable (Next step) (start bytes) s →
      (expectNoAllocations s.tracker).toNat = (s.live.map fun b => b.size.toNat).sum ∧
      (∀ b record, Available s b record →
        ∃ t', notifyAlloc s.tracker b.allocatorId b.start b.size record = some (t', b.ptr)) ∧
      (∀ b ∈ s.live, ∀ allocatorId t' p,
        notifyFree s.tracker allocatorId b.ptr = some (t', p) → p = b.start) ∧
      ∀ allocatorId ptr, ptr ≠ 0 →
        ((notifyFree s.tracker allocatorId ptr).isSome ↔
          ∃ b ∈ s.live, b.ptr = ptr ∧ b.allocatorId = allocatorId ∧
            Intact s.tracker.bytes b)) ∧
    ∀ s, Reachable (Guarded Proper (Next step)) (start bytes) s →
      ∀ l, Proper s l → step s l ≠ .error .assertion := by
  refine ⟨fun s hreach => ?_, fun s hreach l hproper => ?_⟩
  · have hinv := invariant_of_reachable hreach
    refine ⟨hinv.expectNoAllocations_eq, ?_, ?_, ?_⟩
    · intro b record havail
      obtain ⟨t', heq, -⟩ := hinv.notifyAlloc_eq havail
      exact ⟨t', heq⟩
    · intro b hb allocatorId t' p hfree
      obtain ⟨t'', heq, -⟩ := hinv.notifyFree_live hb allocatorId
      rw [hfree] at heq
      split_ifs at heq
      exact (Prod.mk.inj (Option.some.inj heq)).2
    · intro allocatorId ptr hptr0
      constructor
      · intro hsome
        by_cases hlive : ∃ b ∈ s.live, b.ptr = ptr
        · obtain ⟨b, hb, rfl⟩ := hlive
          obtain ⟨t', heq, -⟩ := hinv.notifyFree_live hb allocatorId
          rw [heq] at hsome
          split_ifs at hsome with hcond
          · exact ⟨b, hb, rfl, hcond.1, canariesIntact_iff.mp hcond.2⟩
          · cases hsome
        · push Not at hlive
          rw [hinv.notifyFree_other hptr0 hlive] at hsome
          cases hsome
      · rintro ⟨b, hb, rfl, rfl, hintact⟩
        obtain ⟨t', heq, -⟩ := hinv.notifyFree_live hb b.allocatorId
        rw [heq, if_pos ⟨rfl, canariesIntact_iff.mpr hintact⟩]
        rfl
  · obtain ⟨hinv, hintact⟩ := intact_of_reachable hreach
    exact step_of_proper hinv hintact hproper

/-- Two blocks; the first one is written to, freed and handed out again. -/
def reusedBlock : List Label :=
  [.alloc 5 1000 4 8, .alloc 6 1024 100 16, .write 1011 7, .free 5 1008, .alloc 6 1000 8 24]

theorem allocation_tracker_live_set_reusedBlock :
    ∃ s : State, s.live.map Block.ptr = [1008, 1032] ∧
      (expectNoAllocations s.tracker).toNat = 108 ∧
      step s (.free 6 1008) ≠ .error .assertion ∧
      notifyFree s.tracker 5 1008 = none := by
  have hend : ((exec (fun s l => decide (Proper s l)) step (start fun _ => 0) reusedBlock).any
      fun s => decide (s.live =
        [{ start := 1000, allocatorId := 6, size := 8 },
          { start := 1024, allocatorId := 6, size := 100 }])) = true := by
    decide
  obtain ⟨s, hs, hend⟩ := (Option.any_eq_true _ _).mp hend
  have hlive := of_decide_eq_true hend
  have hrun := Run.of_exec hs
  obtain ⟨hall, hproper⟩ := allocation_tracker_live_set fun _ => 0
  obtain ⟨hsum, -, -, hfree⟩ := hall s ⟨_, hrun.mono fun _ _ _ hstep => hstep.2⟩
  refine ⟨s, by rw [hlive]; rfl, by rw [hsum, hlive]; rfl, ?_, ?_⟩
  · refine hproper s ⟨_, hrun⟩ _ (.inr ⟨{ start := 1000, allocatorId := 6, size := 8 }, ?_⟩)
    rw [hlive]
    exact ⟨List.mem_cons_self, rfl, rfl⟩
  · refine Option.not_isSome_iff_eq_none.mp fun hsome => ?_
    obtain ⟨b, hb, -, hid, -⟩ := (hfree 5 1008 (by decide)).mp hsome
    rw [hlive] at hb
    simp only [List.mem_cons, List.not_mem_nil, or_false] at hb
    rcases hb with rfl | rfl <;> cases hid

end AllocationTracker

end Osi
