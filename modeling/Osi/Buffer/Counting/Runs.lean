import Osi.Buffer.Counting.Handles

/-!
# Reference counts in every run

In every state that clients reach who use their live handles only, the count of a root is
the number of live handles that are derived from it, and a root is allocated as long as
there is one.
-/

namespace Osi

open Memory Transition

namespace Buffer

variable {mem mem' : Heap Buffer} {s s' : State} {h : Handle} {p a : Addr}

namespace Invariant

theorem step {l : Label} (hinv : Invariant s) (hstep : step s l = .ok s') : Invariant s' := by
  obtain ⟨p, size, mem', hfits, hnew, rfl⟩ | ⟨p, h, size, mem', hh, hslice, rfl⟩ |
    ⟨h, r, hh, hfree, rfl⟩ := step_cases hstep
  · exact hinv.new hfits hnew
  · exact hinv.sliced hh hslice
  · obtain ⟨b, hb, hroot, hfree'⟩ := hinv.bufferFree_eq hh
    obtain rfl := Option.some.inj (hfree.symm.trans hfree')
    exact hinv.erase hh hb hroot

end Invariant

theorem invariant_of_reachable (hreach : Reachable (Next step) init s) : Invariant s :=
  hreach.invariant (fun _ _ _ hinv hstep => hinv.step hstep) invariant_init

/-- An object that a call leaves allocated keeps its root. -/
theorem Invariant.root_eq_of_step (hinv : Invariant s) {l : Label} {b b' : Buffer}
    (hstep : Buffer.step s l = .ok s') (hb : s.mem a = some b) (hb' : s'.mem a = some b') :
    b'.root = b.root := by
  have hshape : shape s'.mem a = shape s.mem a → b'.root = b.root := by
    intro hshape
    rw [shape, shape, hb, hb'] at hshape
    exact (Prod.mk.inj (Option.some.inj hshape)).1
  have hne : ∀ {p}, s.mem p = none → a ≠ p := by
    rintro p hp rfl
    rw [hb] at hp
    cases hp
  obtain ⟨p, size, mem', hfits, hnew, rfl⟩ | ⟨p, h, size, mem', hh, hslice, rfl⟩ |
    ⟨h, r, hh, hfree, rfl⟩ := step_cases hstep
  · unfold bufferNew at hnew
    split_ifs at hnew
    obtain ⟨⟨-, hp⟩, rfl⟩ := alloc_eq_some_iff.mp hnew
    exact hshape (shape_update_of_ne (hne hp) _)
  · obtain ⟨length, rootLength, hplaced⟩ := hinv.placed h hh
    obtain ⟨r, hr, -⟩ := exists_of_shape hplaced.root
    obtain ⟨-, -, ⟨-, hp⟩, rfl⟩ := (bufferNewSlice_eq_some hplaced hr).mp hslice
    exact hshape (shape_withSlice (hinv.ne_of_free hp hh).2 hr size (hne hp))
  · obtain ⟨b₁, hb₁, -, hfree'⟩ := hinv.bufferFree_eq hh
    obtain rfl := Option.some.inj (hfree.symm.trans hfree')
    obtain ⟨b₀, hb₀, hroot₀, -⟩ := released_eq_some hb₁ hb'
    obtain rfl := Option.some.inj (hb₀.symm.trans hb)
    exact hroot₀.symm

/-- The bytes of a live handle are the last ones of its root and of the handle it
was sliced from. -/
def RangeOk (s : State) (h : Handle) : Prop :=
  ∃ ptr length root, bufferPtr s.mem h.addr = some ptr ∧
    bufferLength s.mem h.addr = some length ∧
    s.mem h.origin = some root ∧ root.root = h.origin ∧
    h.origin.toNat + headerSize.toNat ≤ ptr.toNat ∧
    ptr.toNat + length.toNat = h.origin.toNat + headerSize.toNat + root.length.toNat ∧
    (h.source = none → h.addr = h.origin) ∧
    ∀ ptr' length', h.source = some (ptr', length') →
      ptr'.toNat ≤ ptr.toNat ∧ ptr.toNat + length.toNat = ptr'.toNat + length'.toNat

/-- The call of `buffer_free` succeeds. It passes to `osi_free` exactly what it
takes off the heap, each object once, and a root only if no other handle refers to
it. -/
def FreeOk (s : State) (h : Handle) : Prop :=
  ∃ mem' freed, bufferFree s.mem h.addr = some (mem', freed) ∧ freed.Nodup ∧
    (∀ a, a ∈ freed ↔ (s.mem a).isSome ∧ mem' a = none) ∧
    ∀ a b, s.mem a = some b → b.root = a →
      (a ∈ freed ↔ a = h.origin ∧ ∀ h' ∈ s.handles.erase h, h'.origin ≠ a)

theorem Invariant.rangeOk (hinv : Invariant s) (hh : h ∈ s.handles) : RangeOk s h := by
  obtain ⟨length, rootLength, hplaced⟩ := hinv.placed h hh
  obtain ⟨ptr, hptr, hlength, hend⟩ := hinv.ptr_add_length hplaced
  obtain ⟨r, hr, hroot, hrlength⟩ := exists_of_shape hplaced.root
  have hle := hplaced.le
  refine ⟨ptr, length, r, hptr, hlength, hr, hroot, by omega, ?_, hplaced.whole, ?_⟩
  · rw [hrlength]
    exact hend
  · intro ptr' length' hsource
    obtain ⟨hend', hle'⟩ := hplaced.source ptr' length' hsource
    exact ⟨by omega, by omega⟩

theorem Invariant.freeOk (hinv : Invariant s) (hh : h ∈ s.handles) : FreeOk s h := by
  obtain ⟨r, hr, hroot, hfree⟩ := hinv.bufferFree_eq hh
  obtain ⟨length, rootLength, hplaced⟩ := hinv.placed h hh
  obtain ⟨b, hb, hbroot, -⟩ := exists_of_shape hplaced.self
  have hlast : refs s h.origin = 1 ↔ ∀ h' ∈ s.handles.erase h, h'.origin ≠ h.origin := by
    have hrefs := refs_erase hh s.mem h.origin
    rw [if_pos rfl] at hrefs
    rw [← hrefs, Nat.add_eq_right, refs, List.countP_eq_zero]
    simp
  refine ⟨_, _, hfree, nodup_freedWith, ?_, ?_⟩
  · intro a
    rw [mem_freedWith, decide_eq_true_iff]
    by_cases ha : a = h.origin
    · subst ha
      rw [released, Function.update_self, hr]
      by_cases h1 : refs s h.origin = 1
      · simp [h1]
      · simp [h1, eq_comm]
    · by_cases haddr : a = h.addr
      · rw [released, Function.update_of_ne ha, haddr, Function.update_self, hb]
        simp [← haddr, ha]
      · rw [released, Function.update_of_ne ha, Function.update_of_ne haddr]
        simp [ha, haddr, Option.isSome_iff_ne_none]
  · intro a b' hb' hroot'
    rw [mem_freedWith, decide_eq_true_iff, hlast]
    constructor
    · rintro (⟨hlast, rfl⟩ | ⟨hself, rfl⟩)
      · exact ⟨rfl, hlast⟩
      · -- a leaf is not a root
        obtain rfl := Option.some.inj (hb.symm.trans hb')
        exact absurd (hroot'.symm.trans hbroot) hself
    · rintro ⟨rfl, hlast⟩
      exact .inl ⟨hlast, rfl⟩

/-- Whatever a client does that uses its live handles only, the count of each root
is the number of live handles derived from it, freeing any of them releases the
root if it is the last, and no other call releases it; and the bytes of every
handle are the last ones of its root and of the handle it was sliced from. -/
theorem buffer_reference_counting (s : State) (hreach : Reachable (Next step) init s) :
    (∀ a b, s.mem a = some b → b.root = a → b.refcount.toNat = refs s a ∧ 0 < refs s a) ∧
    (∀ h ∈ s.handles, FreeOk s h) ∧
    (∀ l s', step s l = .ok s' → ∀ a b, s.mem a = some b → b.root = a →
      (s'.mem a = none ↔ refs s' a = 0)) ∧
    (∀ h ∈ s.handles, ∀ p size length, bufferLength s.mem h.addr = some length →
      p ≠ 0 → s.mem p = none → 0 < size → size ≤ length →
      (bufferNewSlice s.mem p h.addr size).isSome) ∧
    ∀ h ∈ s.handles, RangeOk s h := by
  have hinv := invariant_of_reachable hreach
  refine ⟨hinv.counted, fun h hh => hinv.freeOk hh, ?_, ?_, fun h hh => hinv.rangeOk hh⟩
  · intro l s' hstep a b hb hroot
    have hinv' := hinv.step hstep
    refine ⟨fun hnone => hinv'.refs_eq_zero hnone, ?_⟩
    intro hzero
    refine Option.eq_none_iff_forall_ne_some.mpr fun b' hb' => ?_
    have hroot' := (hinv.root_eq_of_step hstep hb hb').trans hroot
    have hpos := (hinv'.counted a b' hb' hroot').2
    omega
  · intro h hh p size length hlength hp0 hp hpos hle
    obtain ⟨length', rootLength, hplaced⟩ := hinv.placed h hh
    obtain ⟨ptr, -, hlength', -⟩ := hinv.ptr_add_length hplaced
    obtain rfl := Option.some.inj (hlength.symm.trans hlength')
    obtain ⟨r, hr, -⟩ := exists_of_shape hplaced.root
    rw [(bufferNewSlice_eq_some hplaced hr).mpr
      ⟨UInt64.lt_iff_toNat_lt.mp hpos, UInt64.le_iff_toNat_le.mp hle, ⟨hp0, hp⟩, rfl⟩]
    rfl

def sliceOfSlice : List Label :=
  [.new 64 10, .newSlice 128 64 4, .newSlice 192 128 2, .newRef 256 192, .free 64, .free 256,
    .free 128]

theorem buffer_reference_counting_sliceOfSlice :
    ∃ s : State, s.handles.map Handle.addr = [192] ∧ (s.mem 64).isSome ∧ refs s 64 = 1 ∧
      (∀ h ∈ s.handles, FreeOk s h ∧ RangeOk s h) ∧
      bufferFree s.mem 192 ≠ none ∧ bufferPtr s.mem 192 = some 96 := by
  have hend : ((exec (fun _ _ => true) step init sliceOfSlice).any fun s =>
      decide (s.handles.map Handle.addr = [192] ∧ (s.mem 64).isSome ∧ refs s 64 = 1 ∧
        (bufferFree s.mem 192).isSome ∧ bufferPtr s.mem 192 = some 96)) = true := by
    decide
  obtain ⟨s, hs, hend⟩ := (Option.any_eq_true _ _).mp hend
  obtain ⟨hhandles, hmem, hrefs, hfree, hptr⟩ := of_decide_eq_true hend
  obtain ⟨-, hfreeOk, -, -, hrange⟩ := buffer_reference_counting s (Reachable.of_exec_true hs)
  exact ⟨s, hhandles, hmem, hrefs, fun h hh => ⟨hfreeOk h hh, hrange h hh⟩,
    Option.isSome_iff_ne_none.mp hfree, hptr⟩

end Buffer

end Osi
