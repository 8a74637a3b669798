import Osi.Buffer.Counting.Invariant

/-!
# New handles and released ones

A slice is one more handle of its root; a handle that is released is one less, and the last
one releases the root.
-/

namespace Osi

open Memory Transition

namespace Buffer

variable {mem mem' : Heap Buffer} {s s' : State} {h : Handle} {p a : Addr}

namespace Invariant

/-- A new handle at a free address `p`; the objects that were there keep their
shapes, the new object has a place, and the count of its root goes up. -/
theorem add (hinv : Invariant s) (hp : s.mem p = none) (hp0 : p ≠ 0) (haddr : h.addr = p)
    (hshape : ∀ a, a ≠ p → shape mem' a = shape s.mem a)
    (hplaced : ∃ length rootLength, Placed mem' h length rootLength)
    (hnew : ∀ b, mem' p = some b → b.root = p → b.refcount.toNat = 1 ∧ h.origin = p ∧
      p.toNat + headerSize.toNat + b.length.toNat < 2 ^ 64)
    (hold : ∀ a b, a ≠ p → mem' a = some b → ∃ b₀, s.mem a = some b₀ ∧
      (b.root = a → b.refcount.toNat = b₀.refcount.toNat + if h.origin = a then 1 else 0)) :
    Invariant { mem := mem', handles := h :: s.handles } := by
  have hrefs : ∀ a, refs { mem := mem', handles := h :: s.handles } a =
      refs s a + if h.origin = a then 1 else 0 := by
    intro a
    rw [refs, List.countP_cons, refs]
    simp
  refine ⟨?_, ?_, ?_, ?_, ?_, ?_⟩
  · rw [List.map_cons, List.nodup_cons]
    refine ⟨?_, hinv.nodup⟩
    intro hmem
    obtain ⟨h', hh', heq⟩ := List.mem_map.mp hmem
    exact (hinv.ne_of_free hp hh').1 (heq.trans haddr)
  · intro a b hb
    by_cases hap : a = p
    · rw [hap]
      exact hp0
    · obtain ⟨b₀, hb₀, -⟩ := hold a b hap hb
      exact hinv.null a b₀ hb₀
  · intro h' hh'
    rcases List.mem_cons.mp hh' with rfl | hh'
    · exact hplaced
    · obtain ⟨length, rootLength, hplaced'⟩ := hinv.placed h' hh'
      obtain ⟨hself, hroot⟩ := hinv.ne_of_free hp hh'
      exact ⟨length, rootLength, hplaced'.congr (hshape _ hself) (hshape _ hroot)⟩
  · intro a b hb hroot
    rw [hrefs]
    by_cases hap : a = p
    · subst hap
      obtain ⟨hcount, horigin, -⟩ := hnew b hb hroot
      rw [hcount, hinv.refs_eq_zero hp, if_pos horigin]
      exact ⟨rfl, Nat.one_pos⟩
    · obtain ⟨b₀, hb₀, hcount⟩ := hold a b hap hb
      have hroot₀ : b₀.root = a := by
        have hs := hshape a hap
        change mem' a = some b at hb
        rw [shape, shape, hb, hb₀] at hs
        rw [← hroot]
        exact (Prod.mk.inj (Option.some.inj hs)).1.symm
      obtain ⟨hcount₀, hpos⟩ := hinv.counted a b₀ hb₀ hroot₀
      rw [hcount hroot, hcount₀]
      exact ⟨rfl, by omega⟩
  · intro a b hb hroot
    by_cases hap : a = p
    · subst hap
      exact (hnew b hb hroot).2.2
    · obtain ⟨b₀, hb₀, -⟩ := hold a b hap hb
      have hs := hshape a hap
      change mem' a = some b at hb
      rw [shape, shape, hb, hb₀] at hs
      obtain ⟨hr, hl⟩ := Prod.mk.inj (Option.some.inj hs)
      rw [hl]
      exact hinv.fits a b₀ hb₀ (hr ▸ hroot)
  · intro a b hb hroot
    by_cases hap : a = p
    · exact ⟨h, List.mem_cons_self, haddr.trans hap.symm⟩
    · obtain ⟨b₀, hb₀, -⟩ := hold a b hap hb
      have hs := hshape a hap
      change mem' a = some b at hb
      rw [shape, shape, hb, hb₀] at hs
      obtain ⟨hr, -⟩ := Prod.mk.inj (Option.some.inj hs)
      obtain ⟨h', hh', heq⟩ := hinv.leaves a b₀ hb₀ (hr ▸ hroot)
      exact ⟨h', List.mem_cons_of_mem h hh', heq⟩

theorem new (hinv : Invariant s) {size : UInt64}
    (hfits : p.toNat + headerSize.toNat + size.toNat < 2 ^ 64)
    (hnew : bufferNew s.mem p size = some mem') :
    Invariant
      { mem := mem', handles := { addr := p, origin := p, source := none } :: s.handles } := by
  unfold bufferNew at hnew
  split_ifs at hnew with hsize
  obtain ⟨⟨hp0, hp⟩, rfl⟩ := alloc_eq_some_iff.mp hnew
  have hpos : 0 < size.toNat := by
    refine Nat.pos_of_ne_zero fun hzero => hsize ?_
    exact UInt64.toNat_inj.mp hzero
  refine hinv.add hp hp0 rfl (fun a hap => shape_update_of_ne hap _) ?_ ?_ ?_
  · refine ⟨size, size, ?_, ?_, hpos, Nat.le_refl _, by simp, fun _ => rfl⟩
    · simp [shape]
    · simp [shape]
  · intro b hb _
    rw [Function.update_self] at hb
    obtain rfl := Option.some.inj hb
    exact ⟨rfl, rfl, hfits⟩
  · intro a b hap hb
    rw [Function.update_of_ne hap] at hb
    refine ⟨b, hb, fun _ => ?_⟩
    rw [if_neg (Ne.symm hap), Nat.add_zero]

/-- The bytes of a placed handle end with the bytes of its root. -/
theorem ptr_add_length (hinv : Invariant s) {length rootLength : UInt64}
    (hplaced : Placed s.mem h length rootLength) :
    ∃ ptr, bufferPtr s.mem h.addr = some ptr ∧ bufferLength s.mem h.addr = some length ∧
      ptr.toNat + length.toNat = h.origin.toNat + headerSize.toNat + rootLength.toNat := by
  obtain ⟨b, hb, hbroot, hblength⟩ := exists_of_shape hplaced.self
  obtain ⟨r, hr, hrroot, hrlength⟩ := exists_of_shape hplaced.root
  have hfits := hinv.fits _ r hr hrroot
  refine ⟨h.origin + headerSize + rootLength - length, ?_, ?_, ?_⟩
  · simp [bufferPtr, load, hb, hbroot, hr, hrlength, hblength]
  · simp [bufferLength, load, hb, hblength]
  · have hle := hplaced.le
    rw [hrlength] at hfits
    simp only [UInt64.toNat_sub, UInt64.toNat_add] at hfits ⊢
    have hlt := length.toNat_lt
    omega

theorem sliced (hinv : Invariant s) (hh : h ∈ s.handles) {size : UInt64}
    (hslice : bufferNewSlice s.mem p h.addr size = some mem') :
    Invariant (s.sliced p h mem') := by
  obtain ⟨length, rootLength, hplaced⟩ := hinv.placed h hh
  obtain ⟨ptr, hptr, hlength, hend⟩ := hinv.ptr_add_length hplaced
  obtain ⟨r, hr, hrroot, hrlength⟩ := exists_of_shape hplaced.root
  obtain ⟨hsize, hle, ⟨hp0, hp⟩, rfl⟩ := (bufferNewSlice_eq_some hplaced hr).mp hslice
  have hne : h.origin ≠ p := (hinv.ne_of_free hp hh).2
  have hcount : (r.refcount + 1).toNat = r.refcount.toNat + 1 := by
    have hlt := hinv.refs_lt hp hp0 h.origin
    rw [← (hinv.counted _ r hr hrroot).1] at hlt
    rw [UInt64.toNat_add]
    exact Nat.mod_eq_of_lt hlt
  have hshape := fun a (hap : a ≠ p) => shape_withSlice hne hr size hap
  refine hinv.add hp hp0 rfl hshape ?_ ?_ ?_
  · refine ⟨size, rootLength, ?_, ?_, ?_, ?_, ?_, ?_⟩
    · rw [withSlice, shape_update_of_ne (Ne.symm hne)]
      simp [shape, leaf]
    · exact (hshape _ hne).trans hplaced.root
    · exact hsize
    · exact hle.trans hplaced.le
    · intro ptr' l hsource
      simp only [hptr, hlength, Option.pure_def, Option.bind_eq_bind, Option.bind_some,
        Option.some.injEq, Prod.mk.injEq] at hsource
      obtain ⟨rfl, rfl⟩ := hsource
      exact ⟨hend, hle⟩
    · intro hsource
      simp [hptr, hlength] at hsource
  · intro b hb hroot
    rw [withSlice, Function.update_of_ne (Ne.symm hne), Function.update_self] at hb
    obtain rfl := Option.some.inj hb
    exact absurd hroot hne
  · intro a b hap hb
    by_cases ha : h.origin = a
    · subst ha
      rw [withSlice, Function.update_self] at hb
      obtain rfl := Option.some.inj hb
      refine ⟨r, hr, fun _ => ?_⟩
      rw [if_pos rfl]
      exact hcount
    · rw [withSlice, Function.update_of_ne (Ne.symm ha), Function.update_of_ne hap] at hb
      refine ⟨b, hb, fun _ => ?_⟩
      rw [if_neg ha, Nat.add_zero]

/-! ### Released handles -/

/-- `buffer_free` of a live handle takes its count back, and releases the root with
the last handle. -/
theorem bufferFree_eq (hinv : Invariant s) (hh : h ∈ s.handles) :
    ∃ r, s.mem h.origin = some r ∧ r.root = h.origin ∧
      bufferFree s.mem h.addr =
        some (released s.mem h r (refs s h.origin = 1), freedWith h (refs s h.origin = 1)) := by
  obtain ⟨length, rootLength, hplaced⟩ := hinv.placed h hh
  obtain ⟨b, hb, hbroot, -⟩ := exists_of_shape hplaced.self
  obtain ⟨r, hr, hrroot, -⟩ := exists_of_shape hplaced.root
  refine ⟨r, hr, hrroot, ?_⟩
  have h0 := hinv.addr_ne_zero hh
  have hlast : r.refcount - 1 = 0 ↔ refs s h.origin = 1 := by
    rw [← (hinv.counted _ r hr hrroot).1, sub_eq_zero]
    exact UInt64.toNat_inj.symm
  have hfree : bufferFree s.mem h.addr =
      some (released s.mem h r (r.refcount - 1 = 0), freedWith h (r.refcount - 1 = 0)) := by
    by_cases hself : h.addr = h.origin
    · exact bufferFree_root h0 hself hr hrroot
    · exact bufferFree_leaf h0 hself hb hbroot hr
  rw [hfree, decide_eq_decide.mpr hlast]

theorem refs_erase (hh : h ∈ s.handles) (mem : Heap Buffer) (a : Addr) :
    refs { mem := mem, handles := s.handles.erase h } a + (if h.origin = a then 1 else 0) =
      refs s a := by
  have hperm := (List.perm_cons_erase hh).countP_eq fun h' => decide (h'.origin = a)
  rw [List.countP_cons] at hperm
  rw [refs, refs, hperm]
  simp

/-- Handles at different addresses of one root: the root is not released with one of
them. -/
theorem one_lt_refs {h' : Handle} (hne : h' ∈ s.handles.erase h) (hh : h ∈ s.handles)
    (horigin : h'.origin = h.origin) : 1 < refs s h.origin := by
  have hrefs := refs_erase hh s.mem h.origin
  have hpos : 0 < refs { mem := s.mem, handles := s.handles.erase h } h.origin := by
    rw [refs, List.countP_pos_iff]
    exact ⟨h', hne, by simpa using horigin⟩
  rw [if_pos rfl] at hrefs
  omega

theorem addr_ne_of_mem_erase {h' : Handle} (hinv : Invariant s) (hh : h ∈ s.handles)
    (hh' : h' ∈ s.handles.erase h) : h'.addr ≠ h.addr := by
  have hnodup : ((h :: s.handles.erase h).map Handle.addr).Nodup :=
    ((List.perm_cons_erase hh).map Handle.addr).nodup_iff.mp hinv.nodup
  rw [List.map_cons, List.nodup_cons] at hnodup
  intro heq
  exact hnodup.1 (heq ▸ List.mem_map_of_mem hh')

/-- The shapes that the remaining handles need are still there. -/
theorem shape_released {h' : Handle} {r : Buffer} (hinv : Invariant s) (hh : h ∈ s.handles)
    (hh' : h' ∈ s.handles.erase h) (hr : s.mem h.origin = some r)
    (ha : a = h'.addr ∨ a = h'.origin) :
    shape (released s.mem h r (refs s h.origin = 1)) a = shape s.mem a := by
  have hh'mem := List.mem_of_mem_erase hh'
  obtain ⟨length, rootLength, hplaced⟩ := hinv.placed h hh
  obtain ⟨length', rootLength', hplaced'⟩ := hinv.placed h' hh'mem
  have hne := hinv.addr_ne_of_mem_erase hh hh'
  by_cases haorigin : a = h.origin
  · -- the root stays, since `h'` is derived from it
    have horigin : h'.origin = h.origin := by
      rcases ha with ha | ha
      · have hself := hplaced'.self
        rw [← ha, haorigin, hplaced.root] at hself
        exact (Prod.mk.inj (Option.some.inj hself)).1.symm
      · rw [← ha, haorigin]
    have hlast := one_lt_refs hh' hh horigin
    subst haorigin
    rw [shape, shape, released, Function.update_self, decide_eq_false (by omega), hr]
    rfl
  · rw [released, shape_update_of_ne haorigin, shape_update_of_ne]
    rintro rfl
    rcases ha with ha | ha
    · exact hne ha.symm
    · -- a leaf is nobody's root
      have hself := hplaced.self
      rw [ha, hplaced'.root] at hself
      exact haorigin (ha.trans (Prod.mk.inj (Option.some.inj hself)).1)

theorem erase (hinv : Invariant s) (hh : h ∈ s.handles) {r : Buffer}
    (hr : s.mem h.origin = some r) (hroot : r.root = h.origin) :
    Invariant
      { mem := released s.mem h r (refs s h.origin = 1), handles := s.handles.erase h } := by
  have hrefs := refs_erase hh (released s.mem h r (refs s h.origin = 1))
  refine ⟨?_, ?_, ?_, ?_, ?_, ?_⟩
  · exact hinv.nodup.sublist ((List.erase_sublist ..).map _)
  · intro a b hb
    obtain ⟨b₀, hb₀, -⟩ := released_eq_some hr hb
    exact hinv.null a b₀ hb₀
  · intro h' hh'
    obtain ⟨length, rootLength, hplaced⟩ := hinv.placed h' (List.mem_of_mem_erase hh')
    exact ⟨length, rootLength, hplaced.congr
      (hinv.shape_released hh hh' hr (.inl rfl))
      (hinv.shape_released hh hh' hr (.inr rfl))⟩
  · intro a b hb hbroot
    obtain ⟨b₀, hb₀, hroot₀, -, horigin, hother⟩ := released_eq_some hr hb
    obtain ⟨hcount, hpos⟩ := hinv.counted a b₀ hb₀ (hroot₀.trans hbroot)
    have hrefs := hrefs a
    by_cases ha : a = h.origin
    · obtain ⟨hlast, hrefcount⟩ := horigin ha
      have hne : refs s a ≠ 1 := by
        rw [ha]
        exact of_decide_eq_false hlast
      rw [if_pos ha.symm] at hrefs
      have hlt := b₀.refcount.toNat_lt
      rw [hrefcount, UInt64.toNat_sub_of_le]
      · rw [hcount, UInt64.toNat_one]
        exact ⟨by omega, by omega⟩
      · rw [UInt64.le_iff_toNat_le, hcount, UInt64.toNat_one]
        omega
    · rw [if_neg (Ne.symm ha)] at hrefs
      rw [(hother ha).2, hcount]
      exact ⟨hrefs.symm, by omega⟩
  · intro a b hb hbroot
    obtain ⟨b₀, hb₀, hroot₀, hlength₀, -⟩ := released_eq_some hr hb
    rw [← hlength₀]
    exact hinv.fits a b₀ hb₀ (hroot₀.trans hbroot)
  · intro a b hb hbroot
    obtain ⟨b₀, hb₀, hroot₀, -, -, hother⟩ := released_eq_some hr hb
    have ha : a ≠ h.origin := by
      rintro rfl
      obtain rfl := Option.some.inj (hb₀.symm.trans hr)
      exact hbroot (hroot₀.symm.trans hroot)
    obtain ⟨h', hh', haddr⟩ := hinv.leaves a b₀ hb₀ (fun heq => hbroot (hroot₀.symm.trans heq))
    refine ⟨h', ?_, haddr⟩
    rw [List.mem_erase_of_ne]
    · exact hh'
    · rintro rfl
      exact (hother ha).1 haddr.symm

end Invariant

end Buffer

end Osi
