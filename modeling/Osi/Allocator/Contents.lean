import Osi.Allocator.Epochs

/-!
# What the blocks contain

A call that hands out a block changes no byte outside of it. `osi_calloc` fills the
requested bytes with zeros, `osi_strdup` and `osi_strndup` with a string and its NUL;
the canaries on both sides of them stay intact, so that the tracker accepts the block
when it is freed.
-/

namespace Osi

namespace Allocator

open Memory Transition
open AllocationTracker (canarySize memcpy resizeForCanary)

variable {s s' : State} {b : Block} {a ptr start record : Addr} {size : UInt64}
  {bytes : Addr → UInt8} {str : List UInt8}

/-! ## Copies -/

theorem toNat_ofNat {i : ℕ} (h : i < 2 ^ 64) : (UInt64.ofNat i).toNat = i := by
  rw [UInt64.toNat_ofNat']
  exact Nat.mod_eq_of_lt h

theorem memcpy_inside {src : List UInt8} (hlength : src.length ≤ 2 ^ 64) (dst : Addr) {i : ℕ}
    {c : UInt8} (hc : src[i]? = some c) :
    memcpy bytes dst src (dst + UInt64.ofNat i) = c := by
  obtain ⟨hi, rfl⟩ := List.getElem?_eq_some_iff.mp hc
  rw [memcpy, add_sub_cancel_left, toNat_ofNat (by omega), List.getD_eq_getElem _ _ hi]

theorem memcpy_outside {src : List UInt8} {dst : Addr}
    (hdst : dst.toNat + src.length ≤ 2 ^ 64)
    (ha : ¬ (Extent.mk dst.toNat src.length).Contains a.toNat) :
    memcpy bytes dst src a = bytes a := by
  refine List.getD_eq_default _ _ ?_
  have halt := a.toNat_lt
  simp only [Extent.Contains, not_and_or, Nat.not_le, Nat.not_lt] at ha
  rw [UInt64.toNat_sub]
  omega

theorem memcpy_concat {src : List UInt8} (hlength : src.length < 2 ^ 64) (dst : Addr)
    (c : UInt8) :
    Function.update (memcpy bytes dst src) (dst + UInt64.ofNat src.length) c =
      memcpy bytes dst (src ++ [c]) := by
  funext a
  by_cases ha : a = dst + UInt64.ofNat src.length
  · subst ha
    rw [Function.update_self, memcpy_inside (by rw [List.length_append, List.length_singleton]
                                                omega)]
    rw [List.getElem?_append_right (Nat.le_refl _), Nat.sub_self]
    rfl
  · have hoffset : (a - dst).toNat ≠ src.length := by
      intro hsame
      refine ha ?_
      rw [← hsame, UInt64.ofNat_toNat, add_sub_cancel]
    rw [Function.update_of_ne ha, memcpy, memcpy]
    rcases Nat.lt_or_gt_of_ne hoffset with hlt | hgt
    · rw [List.getD_append _ _ _ _ hlt]
    · rw [List.getD_eq_default _ _ (Nat.le_of_lt hgt),
        List.getD_eq_default _ _ (by rw [List.length_append, List.length_singleton]; omega)]

/-! ## New blocks -/

def Holds (bytes : Addr → UInt8) (ptr : Addr) (contents : List UInt8) : Prop :=
  ∀ i c, contents[i]? = some c → bytes (ptr + UInt64.ofNat i) = c

structure HandsOut (s s' : State) (b : Block) : Prop where
  invariant : Invariant s'
  blocks : s'.blocks = b :: s.blocks
  frame : ∀ a : Addr, ¬ b.extent.Contains a.toNat → s'.bytes a = s.bytes a

theorem Block.requested_contains (hbounded : b.extent.start + b.extent.len ≤ 2 ^ 64) {i : ℕ}
    (hi : i < b.size.toNat) : b.requested.Contains (b.ptr + UInt64.ofNat i).toNat := by
  have hptr := b.ptr_toNat hbounded
  have hcanary : canarySize.toNat = 8 := rfl
  have hlt := b.size.toNat_lt
  have hsum : b.requested.start + i < 2 ^ 64 := by
    simp only [Block.requested, Block.extent, hcanary] at hbounded ⊢
    split_ifs at hbounded ⊢
    · omega
    · have := Nat.le_max_left b.size.toNat 1
      omega
  rw [UInt64.toNat_add, toNat_ofNat (by omega), hptr, Nat.mod_eq_of_lt hsum]
  exact ⟨Nat.le_add_right _ _, Nat.add_lt_add_left hi _⟩

/-- What `malloc` promises is what the model asks of a label. -/
theorem available_of_osiMalloc {r : State × Addr}
    (h : s.osiMalloc size start record = .ok r) :
    s.Available start (resizeForCanary s.tracker size) record := by
  by_contra hnot
  rw [State.osiMalloc, if_neg hnot] at h
  cases h

theorem handsOut_osiMalloc (hinv : Invariant s)
    (hsize : size.toNat + 2 * canarySize.toNat < 2 ^ 64)
    (h : s.osiMalloc size start record = .ok (s', ptr)) :
    HandsOut s s' (s.newBlock start size) ∧ ptr = (s.newBlock start size).ptr ∧
      ∀ a : Addr, (s.newBlock start size).requested.Contains a.toNat →
        s'.bytes a = s.bytes a := by
  obtain ⟨s₁, heq, hinv₁, hblocks, -, hframe⟩ :=
    hinv.osiMalloc hsize (available_of_osiMalloc h)
  rw [h] at heq
  cases heq
  exact ⟨⟨hinv₁, hblocks, fun a ha => hframe a (.inr ha)⟩, rfl, fun a ha => hframe a (.inl ha)⟩

/-- The requested bytes are among those that `malloc` was asked for. -/
theorem requested_reserved (s : State) (start : Addr)
    (hsize : size.toNat + 2 * canarySize.toNat < 2 ^ 64) {n : ℕ}
    (h : (s.newBlock start size).requested.Contains n) :
    (Extent.mk start.toNat (resizeForCanary s.tracker size).toNat).Contains n := by
  have hcanary : canarySize.toNat = 8 := rfl
  cases hm : s.tracker.allocations with
  | none => simpa [Block.requested, State.newBlock, resizeForCanary, hm] using h
  | some m =>
      have hreal : (size + 2 * canarySize).toNat = size.toNat + 16 := by
        rw [UInt64.toNat_add]
        exact Nat.mod_eq_of_lt (by change _ + 16 < _; omega)
      simp only [Block.requested, State.newBlock, hm, Option.isSome_some, if_true,
        Extent.Contains, hcanary] at h
      have hresize : resizeForCanary s.tracker size = size + 2 * canarySize := by
        simp [resizeForCanary, hm]
      simp only [hresize, hreal, Extent.Contains]
      omega

theorem handsOut_osiCalloc (hinv : Invariant s)
    (hsize : size.toNat + 2 * canarySize.toNat < 2 ^ 64)
    (h : s.osiCalloc size start record = .ok (s', ptr)) :
    HandsOut s s' (s.newBlock start size) ∧ ptr = (s.newBlock start size).ptr ∧
      Holds s'.bytes ptr (List.replicate size.toNat 0) := by
  have hextent := Invariant.newBlock_extent s start hsize
  have havail : s.Available start (resizeForCanary s.tracker size) record :=
    available_of_osiMalloc (s := s.setBytes
      (State.zeroed s.bytes start (resizeForCanary s.tracker size))) h
  obtain ⟨-, -, hdisjoint, -, -⟩ := havail
  have hzeroed : ∀ a : Addr, ¬ (s.newBlock start size).extent.Contains a.toNat →
      State.zeroed s.bytes start (resizeForCanary s.tracker size) a = s.bytes a := by
    intro a ha
    rw [hextent] at ha
    refine if_neg fun hinside => ha ⟨hinside.1, ?_⟩
    exact Nat.lt_of_lt_of_le hinside.2 (Nat.add_le_add_left (Nat.le_max_left _ _) _)
  have hinv₀ : Invariant (s.setBytes
      (State.zeroed s.bytes start (resizeForCanary s.tracker size))) := by
    refine hinv.setBytes fun a hchanged => .inr fun b hb hinside => hchanged (hzeroed a ?_)
    rw [hextent]
    exact (hdisjoint b hb).symm.not_contains hinside
  obtain ⟨hout, hptr, hrequested⟩ := handsOut_osiMalloc hinv₀ hsize h
  change ptr = (s.newBlock start size).ptr at hptr
  refine ⟨⟨hout.invariant, hout.blocks, ?_⟩, hptr, ?_⟩
  · intro a ha
    exact (hout.frame a ha).trans (hzeroed a ha)
  · intro i c hc
    obtain ⟨hi, rfl⟩ := List.getElem?_eq_some_iff.mp hc
    rw [List.length_replicate] at hi
    have hmem : s.newBlock start size ∈ s'.blocks := by
      rw [hout.blocks]
      exact List.mem_cons_self
    have hinside := Block.requested_contains (hout.invariant.bounded _ hmem) hi
    rw [List.getElem_replicate, hptr, hrequested _ hinside]
    exact if_pos (requested_reserved s start hsize hinside)

/-- The new block with a list of its size copied to the pointer of the client. -/
theorem HandsOut.copy (h : HandsOut s s' b) (contents : List UInt8)
    (hlength : contents.length = b.size.toNat) :
    HandsOut s (s'.setBytes (memcpy s'.bytes b.ptr contents)) b ∧
      Holds (memcpy s'.bytes b.ptr contents) b.ptr contents := by
  have hmem : b ∈ s'.blocks := by
    rw [h.blocks]
    exact List.mem_cons_self
  have hbounded := h.invariant.bounded b hmem
  have hptr := Block.ptr_toNat hbounded
  have hsize : contents.length < 2 ^ 64 := by
    rw [hlength]
    exact b.size.toNat_lt
  have hfits : b.ptr.toNat + contents.length ≤ 2 ^ 64 := by
    have hcanary : canarySize.toNat = 8 := rfl
    rw [hptr, hlength]
    simp only [Block.requested, Block.extent, hcanary] at hbounded ⊢
    split_ifs at hbounded ⊢
    · omega
    · have := Nat.le_max_left b.size.toNat 1
      omega
  have houtside : ∀ a : Addr, ¬ b.requested.Contains a.toNat →
      memcpy s'.bytes b.ptr contents a = s'.bytes a := by
    intro a ha
    refine memcpy_outside hfits ?_
    rw [hptr, hlength]
    exact ha
  refine ⟨⟨h.invariant.setBytes fun a hchanged => .inl ⟨b, hmem, ?_⟩, h.blocks, ?_⟩, ?_⟩
  · exact not_not.mp fun hnot => hchanged (houtside a hnot)
  · intro a ha
    exact (houtside a fun hinside => ha (Block.contains_of_requested hinside)).trans
      (h.frame a ha)
  · intro i c hc
    exact memcpy_inside (Nat.le_of_lt hsize) b.ptr hc

theorem handsOut_osiStrdup (hinv : Invariant s)
    (hlength : str.length + 1 + 2 * canarySize.toNat < 2 ^ 64)
    (h : s.osiStrdup str start record = .ok (s', ptr)) :
    HandsOut s s' (s.newBlock start (UInt64.ofNat (str.length + 1))) ∧
      ptr = (s.newBlock start (UInt64.ofNat (str.length + 1))).ptr ∧
      (str ++ [0]).length ≤ (UInt64.ofNat (str.length + 1)).toNat ∧
      Holds s'.bytes ptr (str ++ [0]) := by
  have hcanary : canarySize.toNat = 8 := rfl
  have hcopy : (str ++ [0]).length = str.length + 1 := by
    rw [List.length_append, List.length_singleton]
  have hsize : (UInt64.ofNat (str.length + 1)).toNat = str.length + 1 := toNat_ofNat (by omega)
  cases hm : s.osiMalloc (UInt64.ofNat (str.length + 1)) start record with
  | error e =>
      simp only [State.osiStrdup, hm] at h
      cases h
  | ok r =>
      obtain ⟨s₁, p⟩ := r
      simp only [State.osiStrdup, hm] at h
      cases h
      obtain ⟨hout, rfl, -⟩ := handsOut_osiMalloc hinv (by omega) hm
      obtain ⟨hcopied, hholds⟩ := hout.copy (str ++ [0]) (hcopy.trans hsize.symm)
      exact ⟨hcopied, rfl, by rw [hcopy, hsize], hholds⟩

theorem strndup_size (str : List UInt8) (len : UInt64) (hlength : str.length < 2 ^ 64) :
    (if len < UInt64.ofNat str.length then len else UInt64.ofNat str.length).toNat =
      (str.take len.toNat).length := by
  rw [List.length_take]
  split_ifs with hlt
  · rw [UInt64.lt_iff_toNat_lt, toNat_ofNat hlength] at hlt
    omega
  · rw [UInt64.lt_iff_toNat_lt, toNat_ofNat hlength] at hlt
    rw [toNat_ofNat hlength]
    omega

theorem handsOut_osiStrndup {len : UInt64} (hinv : Invariant s)
    (hlength : str.length + 1 + 2 * canarySize.toNat < 2 ^ 64)
    (h : s.osiStrndup str len start record = .ok (s', ptr)) :
    ∃ size, HandsOut s s' (s.newBlock start size) ∧ ptr = (s.newBlock start size).ptr ∧
      (str.take len.toNat ++ [0]).length ≤ size.toNat ∧
      Holds s'.bytes ptr (str.take len.toNat ++ [0]) := by
  have hcanary : canarySize.toNat = 8 := rfl
  have hsize := strndup_size str len (by omega)
  have hle : (str.take len.toNat).length ≤ str.length := List.length_take_le' _ _
  have hcopy : (str.take len.toNat ++ [0]).length = (str.take len.toNat).length + 1 := by
    rw [List.length_append, List.length_singleton]
  simp only [State.osiStrndup] at h
  set size := if len < UInt64.ofNat str.length then len else UInt64.ofNat str.length with hdef
  have htake : str.take size.toNat = str.take len.toNat := by
    rw [hsize, List.length_take, ← List.take_take, List.take_length]
  have hofNat : size = UInt64.ofNat (str.take len.toNat).length := by
    rw [← hsize, UInt64.ofNat_toNat]
  have hsucc : (size + 1).toNat = (str.take len.toNat).length + 1 := by
    rw [UInt64.toNat_add, hsize]
    exact Nat.mod_eq_of_lt (by change _ + 1 < _; omega)
  cases hm : s.osiMalloc (size + 1) start record with
  | error e =>
      simp only [hm] at h
      cases h
  | ok r =>
      obtain ⟨s₁, p⟩ := r
      simp only [hm] at h
      obtain ⟨hout, rfl, -⟩ := handsOut_osiMalloc hinv (by omega) hm
      obtain ⟨hcopied, hholds⟩ := hout.copy (str.take len.toNat ++ [0])
        (hcopy.trans hsucc.symm)
      rw [htake, hofNat, memcpy_concat (by omega)] at h
      rw [← hofNat] at h
      cases h
      exact ⟨size + 1, hcopied, rfl, by rw [hcopy, hsucc], hholds⟩

end Allocator

end Osi
