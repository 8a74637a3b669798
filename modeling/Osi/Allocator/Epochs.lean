import Osi.Allocator.Basic
import Osi.Transition.Run

/-!
# What can be freed, and when

The tracker knows the blocks of its epoch. `osi_free` of another block goes wrong in
one of two ways: a tracker that does not know the block fails an assertion, and
without a tracker a pointer behind a canary is not one that `malloc` has returned.
-/

namespace Osi

namespace Allocator

open Memory Transition
open AllocationTracker (Intact canary canarySize memcpy notifyAlloc notifyFree shift
  resizeForCanary)

variable {s s' : State} {b b' : Block} {a ptr start record : Addr} {size : UInt64}
  {bytes bytes' : Addr → UInt8}

namespace Block

def asTracked (b : Block) : AllocationTracker.Block where
  start := b.start
  allocatorId := allocAllocatorId
  size := b.size

theorem asTracked_ptr (h : b.tracked.isSome = true) : b.asTracked.ptr = b.ptr := by
  simp [AllocationTracker.Block.ptr, ptr, asTracked, h]

theorem asTracked_extent (h : b.tracked.isSome = true) : b.asTracked.extent = b.extent := by
  simp [AllocationTracker.Block.extent, extent, asTracked, h]

theorem asTracked_requested (h : b.tracked.isSome = true) :
    b.asTracked.requested = b.requested := by
  simp [AllocationTracker.Block.requested, requested, asTracked, h]

theorem contains_start (b : Block) : b.extent.Contains b.start.toNat := by
  refine ⟨Nat.le_refl _, ?_⟩
  have hcanary : canarySize.toNat = 8 := rfl
  simp only [extent]
  split_ifs
  · omega
  · have := Nat.le_max_right b.size.toNat 1
    omega

theorem contains_of_requested {n : ℕ} (h : b.requested.Contains n) : b.extent.Contains n := by
  have hcanary : canarySize.toNat = 8 := rfl
  simp only [Extent.Contains, requested, extent] at h ⊢
  split_ifs at h ⊢
  · omega
  · have := Nat.le_max_left b.size.toNat 1
    omega

theorem ptr_toNat (h : b.extent.start + b.extent.len ≤ 2 ^ 64) :
    b.ptr.toNat = b.requested.start := by
  have hcanary : canarySize.toNat = 8 := rfl
  simp only [extent, ptr, requested] at h ⊢
  split_ifs at h ⊢
  · rw [UInt64.toNat_add, hcanary]
    omega
  · rfl

theorem contains_ptr (h : b.extent.start + b.extent.len ≤ 2 ^ 64) :
    b.extent.Contains b.ptr.toNat := by
  have hcanary : canarySize.toNat = 8 := rfl
  rw [ptr_toNat h]
  simp only [Extent.Contains, requested, extent]
  split_ifs
  · omega
  · have := Nat.le_max_right b.size.toNat 1
    omega

end Block

/-- The block was handed out without the tracker, and there is none now, or it was
handed out in the present epoch. -/
def Block.Freeable (b : Block) (s : State) : Prop :=
  b.tracked = none ∧ s.tracker.allocations = none ∨ b.tracked = some s.epoch

def current (s : State) : List AllocationTracker.Block :=
  (s.blocks.filter fun b => b.tracked = some s.epoch).map Block.asTracked

theorem mem_current {c : AllocationTracker.Block} :
    c ∈ current s ↔ ∃ b ∈ s.blocks, b.tracked = some s.epoch ∧ b.asTracked = c := by
  simp [current, and_assoc]

structure Invariant (s : State) : Prop where
  nonzero : ∀ b ∈ s.blocks, b.start ≠ 0
  bounded : ∀ b ∈ s.blocks, b.extent.start + b.extent.len ≤ 2 ^ 64
  disjoint : s.blocks.Pairwise fun b b' => b.extent.Disjoint b'.extent
  past : ∀ b ∈ s.blocks, ∀ e, b.tracked = some e → e ≤ s.epoch
  off : s.tracker.allocations = none → ∀ b ∈ s.blocks, b.tracked ≠ some s.epoch
  on : s.tracker.allocations ≠ none →
    ∃ n t, s.tracker = shift n t ∧ AllocationTracker.Invariant ⟨t, current s⟩
  intact : ∀ c ∈ current s, Intact s.bytes c

theorem invariant_start (bytes : Addr → UInt8) : Invariant (Allocator.start bytes) where
  nonzero b hb := by cases hb
  bounded b hb := by cases hb
  disjoint := List.Pairwise.nil
  past b hb := by cases hb
  off _ b hb := by cases hb
  on h := absurd rfl h
  intact c hc := by cases hc

namespace Invariant

theorem eq_of_contains {n : ℕ} (hinv : Invariant s) (hb : b ∈ s.blocks) (hb' : b' ∈ s.blocks)
    (h : b.extent.Contains n) (h' : b'.extent.Contains n) : b = b' := by
  have hsymm : Std.Symm fun b b' : Block => b.extent.Disjoint b'.extent :=
    ⟨fun _ _ hdisjoint => hdisjoint.symm⟩
  by_contra hne
  exact (hinv.disjoint.forall hb hb' hne).not_contains h h'

theorem eq_of_start (hinv : Invariant s) (hb : b ∈ s.blocks) (hb' : b' ∈ s.blocks)
    (h : b'.start = b.start) : b = b' :=
  hinv.eq_of_contains hb hb' b.contains_start (h ▸ b'.contains_start)

/-- Writes that stay inside what was requested, or outside all blocks. -/
theorem setBytes (hinv : Invariant s)
    (hwrite : ∀ a, bytes a ≠ s.bytes a → (∃ b ∈ s.blocks, b.requested.Contains a.toNat) ∨
      ∀ b ∈ s.blocks, ¬ b.extent.Contains a.toNat) : Invariant (s.setBytes bytes) := by
  refine ⟨hinv.nonzero, hinv.bounded, hinv.disjoint, hinv.past, hinv.off, ?_, ?_⟩
  · intro hon
    obtain ⟨n, t, ht, htinv⟩ := hinv.on hon
    refine ⟨n, { t with bytes := bytes }, ?_, ?_⟩
    · simp only [State.setBytes, ht]
      rfl
    · obtain ⟨m, hrec⟩ := htinv.records
      exact ⟨⟨m, hrec.allocations, hrec.wellformed, hrec.nodup, hrec.perm⟩, htinv.fits,
        htinv.disjoint⟩
  · intro c hc
    obtain ⟨b, hb, htracked, rfl⟩ := mem_current.mp hc
    have hsome : b.tracked.isSome = true := by rw [htracked]; rfl
    have hfits : b.asTracked.Fits := by
      refine ⟨hinv.nonzero b hb, ?_⟩
      rw [Block.asTracked_extent hsome]
      exact hinv.bounded b hb
    refine (hinv.intact _ (mem_current.mpr ⟨b, hb, htracked, rfl⟩)).congr hfits ?_
    intro a ha hnot
    rw [Block.asTracked_extent hsome] at ha
    rw [Block.asTracked_requested hsome] at hnot
    by_contra hne
    rcases hwrite a hne with ⟨b', hb', hinside⟩ | houtside
    · have heq := hinv.eq_of_contains hb hb' ha (Block.contains_of_requested hinside)
      exact hnot (heq ▸ hinside)
    · exact houtside b hb ha

/-! ### New blocks -/

theorem newBlock_extent (s : State) (start : Addr) {size : UInt64}
    (hsize : size.toNat + 2 * canarySize.toNat < 2 ^ 64) :
    (s.newBlock start size).extent =
      ⟨start.toNat, max (resizeForCanary s.tracker size).toNat 1⟩ := by
  have hcanary : canarySize.toNat = 8 := rfl
  cases hm : s.tracker.allocations with
  | none => simp [Block.extent, State.newBlock, resizeForCanary, hm]
  | some m =>
      have hreal : (size + 2 * canarySize).toNat = size.toNat + 16 := by
        rw [UInt64.toNat_add]
        exact Nat.mod_eq_of_lt (by change _ + 16 < _; omega)
      simp only [Block.extent, State.newBlock, resizeForCanary, hm, Option.isSome_some, if_true,
        hreal, hcanary, Extent.mk.injEq, true_and]
      omega

/-- A block that is handed out: the tracker accepts it, and no byte outside the canaries
of the new block changes. -/
theorem osiMalloc (hinv : Invariant s)
    (hsize : size.toNat + 2 * canarySize.toNat < 2 ^ 64)
    (havail : s.Available start (resizeForCanary s.tracker size) record) :
    ∃ s', s.osiMalloc size start record = .ok (s', (s.newBlock start size).ptr) ∧
      Invariant s' ∧ s'.blocks = s.newBlock start size :: s.blocks ∧ s'.epoch = s.epoch ∧
      ∀ a : Addr, (s.newBlock start size).requested.Contains a.toNat ∨
        ¬ (s.newBlock start size).extent.Contains a.toNat → s'.bytes a = s.bytes a := by
  have hextent := newBlock_extent s start hsize
  obtain ⟨hstart, hbound, hdisjoint, hrecord0, hrecord⟩ := havail
  have hnonzero : ∀ b ∈ s.newBlock start size :: s.blocks, b.start ≠ 0 := by
    intro b hb
    rcases List.mem_cons.mp hb with rfl | hb
    · exact hstart
    · exact hinv.nonzero b hb
  have hbounded : ∀ b ∈ s.newBlock start size :: s.blocks,
      b.extent.start + b.extent.len ≤ 2 ^ 64 := by
    intro b hb
    rcases List.mem_cons.mp hb with rfl | hb
    · rw [hextent]
      exact hbound
    · exact hinv.bounded b hb
  have hpairwise : (s.newBlock start size :: s.blocks).Pairwise
      fun b b' => b.extent.Disjoint b'.extent := by
    refine List.pairwise_cons.mpr ⟨?_, hinv.disjoint⟩
    intro b hb
    rw [hextent]
    exact hdisjoint b hb
  have hallowed : s.Available start (resizeForCanary s.tracker size) record :=
    ⟨hstart, hbound, hdisjoint, hrecord0, hrecord⟩
  cases hm : s.tracker.allocations with
  | none =>
      have hnotify : notifyAlloc s.tracker allocAllocatorId start size record =
          some (s.tracker, start) := by
        simp [notifyAlloc, hm]
      have hnew : s.newBlock start size = ⟨start, size, none⟩ := by
        simp [State.newBlock, hm]
      refine ⟨{ s with blocks := s.newBlock start size :: s.blocks }, ?_,
        ⟨hnonzero, hbounded, hpairwise, ?_, ?_, ?_, ?_⟩, rfl, rfl, fun _ _ => rfl⟩
      · simp only [State.osiMalloc, hallowed, if_true, hnotify]
        rw [hnew]
        rfl
      · intro b hb e he
        rcases List.mem_cons.mp hb with rfl | hb
        · rw [hnew] at he
          cases he
        · exact hinv.past b hb e he
      · intro _ b hb
        rcases List.mem_cons.mp hb with rfl | hb
        · rw [hnew]
          simp
        · exact hinv.off hm b hb
      · intro hon
        exact absurd hm hon
      · intro c hc
        obtain ⟨b, hb, htracked, rfl⟩ := mem_current.mp hc
        rcases List.mem_cons.mp hb with rfl | hb
        · rw [hnew] at htracked
          cases htracked
        · exact hinv.intact _ (mem_current.mpr ⟨b, hb, htracked, rfl⟩)
  | some m =>
      obtain ⟨n, t, ht, htinv⟩ := hinv.on (by simp [hm])
      have hnew : s.newBlock start size = ⟨start, size, some s.epoch⟩ := by
        simp [State.newBlock, hm]
      have hsome : (s.newBlock start size).tracked.isSome = true := by rw [hnew]; rfl
      have havail' : AllocationTracker.Available ⟨t, current s⟩
          (s.newBlock start size).asTracked record := by
        refine ⟨hstart, ?_, ?_, hrecord0, ?_⟩
        · rw [Block.asTracked_extent hsome]
          exact hbounded _ List.mem_cons_self
        · intro c hc
          obtain ⟨b, hb, htracked, rfl⟩ := mem_current.mp hc
          rw [Block.asTracked_extent hsome, hextent,
            Block.asTracked_extent (by rw [htracked]; rfl)]
          exact hdisjoint b hb
        · rw [ht] at hrecord
          exact hrecord
      have hfits : (s.newBlock start size).asTracked.Fits := ⟨havail'.1, havail'.2.1⟩
      obtain ⟨t', hnotify, hbytes, -⟩ := htinv.notifyAlloc_eq havail'
      have htinv' := htinv.alloc havail' hnotify
      obtain ⟨hcanaries, hframe⟩ := AllocationTracker.intact_new t.bytes hfits
      have hsame : t.bytes = s.bytes := by rw [State.bytes, ht]; rfl
      rw [← hbytes] at hcanaries hframe
      have hnotify' : notifyAlloc s.tracker allocAllocatorId start size record =
          some (shift n t', (s.newBlock start size).ptr) := by
        rw [ht, AllocationTracker.notifyAlloc_shift]
        change (notifyAlloc t (s.newBlock start size).asTracked.allocatorId
          (s.newBlock start size).asTracked.start
          (s.newBlock start size).asTracked.size record).map _ = _
        rw [hnotify, Block.asTracked_ptr hsome]
        rfl
      have hcurrent : current { s with
          tracker := shift n t'
          blocks := s.newBlock start size :: s.blocks } =
          (s.newBlock start size).asTracked :: current s := by
        simp [current, hnew]
      refine ⟨{ s with tracker := shift n t', blocks := s.newBlock start size :: s.blocks }, ?_,
        ⟨hnonzero, hbounded, hpairwise, ?_, ?_, ?_, ?_⟩, rfl, rfl, ?_⟩
      · simp only [State.osiMalloc, hallowed, if_true, hnotify']
      · intro b hb e he
        rcases List.mem_cons.mp hb with rfl | hb
        · rw [hnew] at he
          cases he
          exact Nat.le_refl _
        · exact hinv.past b hb e he
      · intro hoff
        obtain ⟨m', hm'⟩ := htinv'.records
        have hallocations : t'.allocations = some m' := hm'.allocations
        simp [shift, hallocations] at hoff
      · intro _
        refine ⟨n, t', rfl, ?_⟩
        rw [hcurrent]
        exact htinv'
      · intro c hc
        rw [hcurrent] at hc
        change Intact t'.bytes c
        rcases List.mem_cons.mp hc with rfl | hc
        · exact hcanaries
        · have hold := hinv.intact c hc
          rw [← hsame] at hold
          refine hold.congr (htinv.fits c hc) ?_
          intro a ha _
          exact hframe a ((havail'.2.2.1 c hc).symm.not_contains ha)
      · intro a ha
        change t'.bytes a = s.bytes a
        rw [← hsame]
        rcases ha with hinside | houtside
        · rw [← Block.asTracked_requested hsome] at hinside
          rw [hbytes]
          exact AllocationTracker.memcpy_requested hfits hinside
        · rw [← Block.asTracked_extent hsome] at houtside
          exact hframe a houtside

/-! ### Freed blocks -/

theorem wellformed (hinv : Invariant s) {m : HashMap AllocationTracker.params Addr}
    (hm : s.tracker.allocations = some m) :
    ∃ n t m', s.tracker = shift n t ∧ AllocationTracker.Invariant ⟨t, current s⟩ ∧
      t.allocations = some m' ∧ m'.Wellformed := by
  obtain ⟨n, t, ht, htinv⟩ := hinv.on (by simp [hm])
  obtain ⟨m', hrec⟩ := htinv.records
  exact ⟨n, t, m', ht, htinv, hrec.allocations, hrec.wellformed⟩

theorem filter (hinv : Invariant s) {tracker : AllocationTracker.Tracker}
    (hbytes : tracker.bytes = s.tracker.bytes)
    (hs' : s' = { s with tracker := tracker, blocks := s.blocks.filter fun b => b.start ≠ start })
    (hoff : tracker.allocations = none → s.tracker.allocations = none)
    (hon : tracker.allocations ≠ none →
      ∃ n t, tracker = shift n t ∧ AllocationTracker.Invariant ⟨t, current s'⟩) :
    Invariant s' := by
  subst hs'
  refine ⟨?_, ?_, hinv.disjoint.filter _, ?_, ?_, hon, ?_⟩
  · intro b hb
    exact hinv.nonzero b (List.mem_of_mem_filter hb)
  · intro b hb
    exact hinv.bounded b (List.mem_of_mem_filter hb)
  · intro b hb
    exact hinv.past b (List.mem_of_mem_filter hb)
  · intro hnone b hb
    exact hinv.off (hoff hnone) b (List.mem_of_mem_filter hb)
  · intro c hc
    obtain ⟨b, hb, htracked, rfl⟩ := mem_current.mp hc
    change Intact tracker.bytes _
    rw [hbytes]
    exact hinv.intact _ (mem_current.mpr ⟨b, List.mem_of_mem_filter hb, htracked, rfl⟩)

theorem current_filter (hb : b.tracked.isSome = true) (tracker : AllocationTracker.Tracker) :
    current { s with
      tracker := tracker
      blocks := s.blocks.filter fun b' => b'.start ≠ b.start } =
      (current s).filter fun c => c.ptr ≠ b.ptr := by
  simp only [current, List.filter_map, List.filter_filter]
  congr 1
  refine List.filter_congr ?_
  intro b' _
  have hptr : b'.asTracked.ptr = b.asTracked.ptr ↔ b'.start = b.start :=
    AllocationTracker.Block.ptr_inj
  rw [← Block.asTracked_ptr hb, Bool.and_comm]
  congr 1
  exact decide_eq_decide.mpr (not_congr hptr.symm)

theorem osiFree_current (hinv : Invariant s) (hb : b ∈ s.blocks)
    (htracked : b.tracked = some s.epoch) :
    ∃ s', s.osiFree b.ptr = .ok s' ∧ Invariant s' ∧ s'.bytes = s.bytes ∧
      s'.epoch = s.epoch ∧ s'.blocks = s.blocks.filter fun b' => b'.start ≠ b.start := by
  have hsome : b.tracked.isSome = true := by rw [htracked]; rfl
  cases hm : s.tracker.allocations with
  | none => exact absurd htracked (hinv.off hm b hb)
  | some m =>
      obtain ⟨n, t, m', ht, htinv, hm', hwf⟩ := hinv.wellformed hm
      have hmem : b.asTracked ∈ current s := mem_current.mpr ⟨b, hb, htracked, rfl⟩
      have hintact : Intact t.bytes b.asTracked := by
        have hold := hinv.intact _ hmem
        rw [State.bytes, ht] at hold
        exact hold
      obtain ⟨t', hfree, hbytes, -⟩ := htinv.notifyFree_live hmem allocAllocatorId
      rw [if_pos ⟨rfl, AllocationTracker.canariesIntact_iff.mpr hintact⟩] at hfree
      have htinv' := (htinv.free hfree).2
      have hnotify : notifyFree s.tracker allocAllocatorId b.ptr =
          some (shift n t', b.start) := by
        rw [ht, AllocationTracker.notifyFree_shift n hm'
          (AllocationTracker.counted_of_wellformed hwf), ← Block.asTracked_ptr hsome, hfree]
        rfl
      have hexists : ∃ b' ∈ s.blocks, b'.start = b.start := ⟨b, hb, rfl⟩
      refine ⟨{ s with
        tracker := shift n t'
        blocks := s.blocks.filter fun b' => b'.start ≠ b.start }, ?_, ?_, ?_, rfl, rfl⟩
      · simp only [State.osiFree, hnotify, hinv.nonzero b hb, if_false, hexists, if_true]
      · refine hinv.filter ?_ rfl ?_ ?_
        · rw [ht]
          exact hbytes
        · intro hnone
          obtain ⟨m₂, hm₂⟩ := htinv'.records
          have hallocations : t'.allocations = some m₂ := hm₂.allocations
          simp [shift, hallocations] at hnone
        · intro _
          refine ⟨n, t', rfl, ?_⟩
          rw [current_filter hsome, ← Block.asTracked_ptr hsome]
          exact htinv'
      · change t'.bytes = s.bytes
        rw [hbytes, State.bytes, ht]
        rfl

/-- `osi_free` of a block that was handed out without the tracker, without it. -/
theorem osiFree_untracked (hinv : Invariant s) (hb : b ∈ s.blocks) (hnone : b.tracked = none)
    (hm : s.tracker.allocations = none) :
    ∃ s', s.osiFree b.ptr = .ok s' ∧ Invariant s' ∧ s'.bytes = s.bytes ∧
      s'.epoch = s.epoch ∧ s'.blocks = s.blocks.filter fun b' => b'.start ≠ b.start := by
  have hptr : b.ptr = b.start := by simp [Block.ptr, hnone]
  have hnotify : notifyFree s.tracker allocAllocatorId b.ptr = some (s.tracker, b.start) := by
    simp [notifyFree, hm, hptr]
  have hexists : ∃ b' ∈ s.blocks, b'.start = b.start := ⟨b, hb, rfl⟩
  refine ⟨{ s with blocks := s.blocks.filter fun b' => b'.start ≠ b.start }, ?_,
    hinv.filter rfl rfl id fun hon => absurd hm hon, rfl, rfl, rfl⟩
  simp only [State.osiFree, hnotify, hinv.nonzero b hb, if_false, hexists, if_true]

theorem osiFree_freeable (hinv : Invariant s) (hb : b ∈ s.blocks) (h : b.Freeable s) :
    ∃ s', s.osiFree b.ptr = .ok s' ∧ Invariant s' ∧ s'.bytes = s.bytes ∧
      s'.epoch = s.epoch ∧ s'.blocks = s.blocks.filter fun b' => b'.start ≠ b.start := by
  rcases h with ⟨hnone, hm⟩ | htracked
  · exact hinv.osiFree_untracked hb hnone hm
  · exact hinv.osiFree_current hb htracked

theorem osiFree_other (hinv : Invariant s) (hb : b ∈ s.blocks)
    (hother : ¬ b.Freeable s) :
    s.osiFree b.ptr = .error (if s.tracker.allocations = none then .invalidFree
      else .assertion) := by
  have hptr : b.ptr ≠ 0 := by
    intro hzero
    have hstart := hinv.nonzero b hb
    have hnat := b.ptr_toNat (hinv.bounded b hb)
    rw [hzero, UInt64.toNat_zero, Block.requested] at hnat
    split_ifs at hnat
    · simp only at hnat
      have hcanary : canarySize.toNat = 8 := rfl
      omega
    · exact hstart (UInt64.toNat_inj.mp hnat.symm)
  cases hm : s.tracker.allocations with
  | none =>
      -- the pointer is behind a canary, inside the block
      have htracked : b.tracked.isSome = true := by
        cases htracked : b.tracked with
        | none => exact absurd (.inl ⟨htracked, hm⟩) hother
        | some e => rfl
      have hnotify : notifyFree s.tracker allocAllocatorId b.ptr = some (s.tracker, b.ptr) := by
        simp [notifyFree, hm]
      have hnot : ¬ ∃ b' ∈ s.blocks, b'.start = b.ptr := by
        rintro ⟨b', hb', hstart⟩
        have hsame : b = b' := hinv.eq_of_contains hb hb'
          (Block.contains_ptr (hinv.bounded b hb)) (hstart ▸ b'.contains_start)
        subst hsame
        have hnat := b.ptr_toNat (hinv.bounded b hb)
        have hcanary : canarySize.toNat = 8 := rfl
        rw [← hstart] at hnat
        simp only [Block.requested, htracked, if_true] at hnat
        omega
      simp only [State.osiFree, hnotify, hptr, if_false, hnot, if_true]
  | some m =>
      obtain ⟨n, t, m', ht, htinv, hm', hwf⟩ := hinv.wellformed hm
      have hunknown : ∀ c ∈ current s, c.ptr ≠ b.ptr := by
        intro c hc hsame
        obtain ⟨b', hb', htracked, rfl⟩ := mem_current.mp hc
        rw [Block.asTracked_ptr (by rw [htracked]; rfl)] at hsame
        have hblock : b = b' := hinv.eq_of_contains hb hb'
          (Block.contains_ptr (hinv.bounded b hb))
          (hsame ▸ Block.contains_ptr (hinv.bounded b' hb'))
        exact hother (.inr (hblock ▸ htracked))
      have hnotify : notifyFree s.tracker allocAllocatorId b.ptr = none := by
        rw [ht, AllocationTracker.notifyFree_shift n hm'
          (AllocationTracker.counted_of_wellformed hwf),
          htinv.notifyFree_other hptr hunknown]
        rfl
      simp [State.osiFree, hnotify]

theorem osiFree_null (s : State) : s.osiFree 0 = .ok s := by
  have hnotify : notifyFree s.tracker allocAllocatorId 0 = some (s.tracker, 0) := by
    cases hm : s.tracker.allocations <;> simp [notifyFree, hm]
  simp [State.osiFree, hnotify]

/-! ### Epochs -/

theorem newEpoch (hinv : Invariant s) (tracker : AllocationTracker.Tracker)
    (hon : tracker.allocations ≠ none → ∃ n t, tracker = shift n t ∧
      AllocationTracker.Invariant ⟨t, []⟩) :
    Invariant { s with tracker := tracker, epoch := s.epoch + 1 } := by
  have hpast : ∀ b ∈ s.blocks, b.tracked ≠ some (s.epoch + 1) := by
    intro b hb htracked
    exact absurd (hinv.past b hb _ htracked) (by omega)
  have hcurrent : current { s with tracker := tracker, epoch := s.epoch + 1 } = [] := by
    rw [current, List.map_eq_nil_iff, List.filter_eq_nil_iff]
    intro b hb
    simpa using hpast b hb
  refine ⟨hinv.nonzero, hinv.bounded, hinv.disjoint, ?_, fun _ => hpast, ?_, ?_⟩
  · intro b hb e he
    exact Nat.le_succ_of_le (hinv.past b hb e he)
  · rw [hcurrent]
    exact hon
  · rw [hcurrent]
    intro c hc
    cases hc

theorem init (hinv : Invariant s) (hs' : step s .init = .ok s') :
    Invariant s' ∧ s'.bytes = s.bytes ∧ s'.blocks = s.blocks := by
  cases hs'
  cases hm : s.tracker.allocations with
  | none =>
      have htracker : AllocationTracker.init s.tracker =
          { s.tracker with allocations := some HashMap.new } := by
        simp [AllocationTracker.init, hm]
      have hstate := hinv.newEpoch (AllocationTracker.init s.tracker) ?_
      · exact ⟨by simpa [hm] using hstate, by rw [State.bytes, htracker]; rfl, rfl⟩
      · intro _
        refine ⟨0, _, ?_, AllocationTracker.invariant_new s.tracker⟩
        rw [htracker]
        simp [shift, HashMap.shift]
  | some m =>
      have htracker : AllocationTracker.init s.tracker = s.tracker := by
        simp [AllocationTracker.init, hm]
      exact ⟨by simpa [hm, htracker] using hinv, by rw [State.bytes, htracker]; rfl, rfl⟩

theorem clear (hinv : Invariant s) {m : HashMap AllocationTracker.params Addr}
    (hm : s.tracker.allocations = some m) :
    ∃ records n, AllocationTracker.freeRecords s.tracker.records m.clear.2 = some records ∧
      m.clear.1 = HashMap.shift n HashMap.new := by
  obtain ⟨n, t, ht, htinv⟩ := hinv.on (by simp [hm])
  obtain ⟨m', hrec⟩ := htinv.records
  have hallocations : t.allocations = some m' := hrec.allocations
  obtain rfl : HashMap.shift n m' = m := by
    rw [ht] at hm
    simpa [shift, hallocations] using hm
  obtain ⟨records, hrecords, hclear⟩ := AllocationTracker.clear_of_records hrec n
  exact ⟨records, _, by rw [ht]; exact hrecords, hclear⟩

theorem reset (hinv : Invariant s) (hs' : step s .reset = .ok s') :
    Invariant s' ∧ s'.bytes = s.bytes ∧ s'.blocks = s.blocks := by
  simp only [step, State.endEpoch] at hs'
  cases hm : s.tracker.allocations with
  | none =>
      simp only [AllocationTracker.reset, hm, Option.isSome_none, Bool.false_eq_true,
        if_false] at hs'
      cases hs'
      exact ⟨hinv, rfl, rfl⟩
  | some m =>
      obtain ⟨records, n, hrecords, hclear⟩ := hinv.clear hm
      have htracker : AllocationTracker.reset s.tracker = some { s.tracker with
          records := records
          allocations := some (HashMap.shift n HashMap.new) } := by
        simp [AllocationTracker.reset, hm, hrecords, hclear]
      simp only [htracker, hm, Option.isSome_some, if_true] at hs'
      cases hs'
      refine ⟨hinv.newEpoch _ ?_, rfl, rfl⟩
      intro _
      refine ⟨n, _, ?_, AllocationTracker.invariant_new
        { s.tracker with records := records }⟩
      rfl

theorem uninit (hinv : Invariant s) (hs' : step s .uninit = .ok s') :
    Invariant s' ∧ s'.bytes = s.bytes ∧ s'.blocks = s.blocks := by
  simp only [step, State.endEpoch] at hs'
  cases hm : s.tracker.allocations with
  | none =>
      simp only [AllocationTracker.uninit, hm, Option.isSome_none, Bool.false_eq_true,
        if_false] at hs'
      cases hs'
      exact ⟨hinv, rfl, rfl⟩
  | some m =>
      obtain ⟨records, n, hrecords, -⟩ := hinv.clear hm
      have htracker : AllocationTracker.uninit s.tracker = some { s.tracker with
          records := records
          allocations := none } := by
        simp [AllocationTracker.uninit, hm, hrecords]
      simp only [htracker, hm, Option.isSome_some, if_true] at hs'
      cases hs'
      refine ⟨hinv.newEpoch _ ?_, rfl, rfl⟩
      intro hon
      exact absurd rfl hon

end Invariant

end Allocator

end Osi
