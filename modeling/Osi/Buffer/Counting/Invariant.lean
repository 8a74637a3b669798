import Osi.Buffer.Basic

/-!
# Reference counts and ranges

In every state that clients reach who use their live handles only, the count of a
root is the number of live handles that are derived from it, directly or through
other slices, and a root is allocated as long as there is one. The bytes of a
handle end where the bytes of its root end. What the functions read of an object,
apart from the count, is its `shape`, and it never changes.
-/

namespace Osi

open Memory Transition

namespace Buffer

variable {mem mem' : Heap Buffer} {s s' : State} {h : Handle} {p a : Addr}

def refs (s : State) (root : Addr) : ℕ := s.handles.countP fun h => h.origin = root

def shape (mem : Heap Buffer) (a : Addr) : Option (Addr × UInt64) :=
  (mem a).map fun b => (b.root, b.length)

/-- The handle and its root are allocated, the bytes of the handle are among those
of the root, and those it was sliced from end where those of the root end. -/
structure Placed (mem : Heap Buffer) (h : Handle) (length rootLength : UInt64) : Prop where
  self : shape mem h.addr = some (h.origin, length)
  root : shape mem h.origin = some (h.origin, rootLength)
  pos : 0 < length.toNat
  le : length.toNat ≤ rootLength.toNat
  source : ∀ ptr l, h.source = some (ptr, l) →
    ptr.toNat + l.toNat = h.origin.toNat + headerSize.toNat + rootLength.toNat ∧
      length.toNat ≤ l.toNat
  whole : h.source = none → h.addr = h.origin

structure Invariant (s : State) : Prop where
  nodup : (s.handles.map Handle.addr).Nodup
  null : ∀ a b, s.mem a = some b → a ≠ 0
  placed : ∀ h ∈ s.handles, ∃ length rootLength, Placed s.mem h length rootLength
  counted : ∀ a b, s.mem a = some b → b.root = a →
    b.refcount.toNat = refs s a ∧ 0 < refs s a
  fits : ∀ a b, s.mem a = some b → b.root = a →
    a.toNat + headerSize.toNat + b.length.toNat < 2 ^ 64
  leaves : ∀ a b, s.mem a = some b → b.root ≠ a → ∃ h ∈ s.handles, h.addr = a

theorem shape_update_of_ne (hne : a ≠ p) (b : Option Buffer) :
    shape (Function.update mem p b) a = shape mem a := by
  rw [shape, shape, Function.update_of_ne hne]

theorem shape_update_refcount {b : Buffer} (hb : mem p = some b) (n : UInt64) (a : Addr) :
    shape (Function.update mem p (some { b with refcount := n })) a = shape mem a := by
  by_cases hap : a = p
  · subst hap
    rw [shape, shape, Function.update_self, hb]
    rfl
  · exact shape_update_of_ne hap _

theorem exists_of_shape {r : Addr} {l : UInt64} (hshape : shape mem a = some (r, l)) :
    ∃ b, mem a = some b ∧ b.root = r ∧ b.length = l := by
  obtain ⟨b, hb, hrl⟩ := Option.map_eq_some_iff.mp hshape
  obtain ⟨hr, hl⟩ := Prod.mk.inj hrl
  exact ⟨b, hb, hr, hl⟩

theorem Placed.congr {length rootLength : UInt64} (hplaced : Placed mem h length rootLength)
    (hself : shape mem' h.addr = shape mem h.addr)
    (hroot : shape mem' h.origin = shape mem h.origin) :
    Placed mem' h length rootLength :=
  ⟨hself.trans hplaced.self, hroot.trans hplaced.root, hplaced.pos, hplaced.le,
    hplaced.source, hplaced.whole⟩

theorem invariant_init : Invariant init where
  nodup := List.nodup_nil
  null a b hb := by cases hb
  placed h hh := by cases hh
  counted a b hb := by cases hb
  fits a b hb := by cases hb
  leaves a b hb := by cases hb

theorem mem_of_find (hfind : s.find a = some h) : h ∈ s.handles ∧ h.addr = a := by
  refine ⟨List.mem_of_find?_eq_some hfind, ?_⟩
  simpa using List.find?_some hfind

def leaf (root : Addr) (size : UInt64) : Buffer where
  root := root
  refcount := sizeMax
  length := size

def withSlice (mem : Heap Buffer) (p root : Addr) (r : Buffer) (size : UInt64) : Heap Buffer :=
  Function.update (Function.update mem p (some (leaf root size))) root
    (some { r with refcount := r.refcount + 1 })

/-- A new slice leaves the shapes of the other objects as they are. -/
theorem shape_withSlice {root : Addr} {r : Buffer} (hne : root ≠ p) (hr : mem root = some r)
    (size : UInt64) (hap : a ≠ p) : shape (withSlice mem p root r size) a = shape mem a := by
  have hr' : Function.update mem p (some (leaf root size)) root = some r := by
    rw [Function.update_of_ne hne, hr]
  rw [withSlice, shape_update_refcount hr', shape_update_of_ne hap]

def released (mem : Heap Buffer) (h : Handle) (r : Buffer) (last : Bool) : Heap Buffer :=
  Function.update
    (Function.update mem h.addr none) h.origin
    (if last then none else some { r with refcount := r.refcount - 1 })

def freedWith (h : Handle) (last : Bool) : List Addr :=
  (if last then [h.origin] else []) ++ if h.addr = h.origin then [] else [h.addr]

theorem mem_freedWith {last : Bool} :
    a ∈ freedWith h last ↔ last = true ∧ a = h.origin ∨ h.addr ≠ h.origin ∧ a = h.addr := by
  by_cases hself : h.addr = h.origin <;> cases last <;> simp [freedWith, hself]

theorem nodup_freedWith {last : Bool} : (freedWith h last).Nodup := by
  by_cases hself : h.addr = h.origin <;> cases last <;> simp [freedWith, hself, eq_comm]

theorem bufferNewSlice_eq_some {length rootLength size : UInt64} {r : Buffer}
    (hplaced : Placed mem h length rootLength) (hr : mem h.origin = some r) :
    bufferNewSlice mem p h.addr size = some mem' ↔
      0 < size.toNat ∧ size.toNat ≤ length.toNat ∧ (p ≠ 0 ∧ mem p = none) ∧
        mem' = withSlice mem p h.origin r size := by
  obtain ⟨b, hb, hbroot, hblength⟩ := exists_of_shape hplaced.self
  have hroot : ∀ mem₁, alloc mem p (leaf h.origin size) = some mem₁ →
      mem₁ = Function.update mem p (some (leaf h.origin size)) ∧ mem₁ h.origin = some r := by
    intro mem₁ halloc
    obtain ⟨⟨-, hp⟩, rfl⟩ := alloc_eq_some_iff.mp halloc
    refine ⟨rfl, ?_⟩
    rw [Function.update_of_ne, hr]
    rintro rfl
    rw [hr] at hp
    cases hp
  have hguard : (size = 0 ∨ b.length < size) ↔ ¬ (0 < size.toNat ∧ size.toNat ≤ length.toNat) := by
    rw [← hblength, UInt64.lt_iff_toNat_lt, ← UInt64.toNat_inj, UInt64.toNat_zero]
    omega
  unfold bufferNewSlice
  simp only [load, hb, Option.bind_eq_bind, Option.bind_some]
  by_cases hsize : 0 < size.toNat ∧ size.toNat ≤ length.toNat
  · rw [if_neg (by rwa [hguard, not_not])]
    constructor
    · intro hslice
      obtain ⟨mem₁, halloc, hslice⟩ := Option.bind_eq_some_iff.mp hslice
      rw [hbroot] at halloc hslice
      obtain ⟨hmem₁, hr₁⟩ := hroot mem₁ halloc
      rw [hr₁, Option.bind_some, store_eq hr₁] at hslice
      refine ⟨hsize.1, hsize.2, (alloc_eq_some_iff.mp halloc).1, ?_⟩
      rw [← Option.some.inj hslice, hmem₁]
      rfl
    · rintro ⟨-, -, hfree, rfl⟩
      have halloc : alloc mem p (leaf h.origin size) = some _ :=
        alloc_eq_some_iff.mpr ⟨hfree, rfl⟩
      obtain ⟨-, hr₁⟩ := hroot _ halloc
      rw [hbroot]
      change (alloc mem p (leaf h.origin size)).bind _ = _
      rw [halloc, Option.bind_some, hr₁, Option.bind_some, store_eq hr₁]
      rfl
  · rw [if_pos (hguard.mpr hsize)]
    constructor
    · intro hslice
      cases hslice
    · rintro ⟨hpos, hle, -⟩
      exact absurd ⟨hpos, hle⟩ hsize

theorem bufferFree_root {r : Buffer} (h0 : h.addr ≠ 0) (hself : h.addr = h.origin)
    (hr : mem h.origin = some r) (hroot : r.root = h.origin) :
    bufferFree mem h.addr =
      some (released mem h r (r.refcount - 1 = 0), freedWith h (r.refcount - 1 = 0)) := by
  rw [hself] at h0
  simp only [bufferFree, load, hself, hr, h0, hroot, if_false, Option.bind_eq_bind,
    Option.bind_some, ne_eq, not_true_eq_false, store_eq hr]
  by_cases hlast : r.refcount - 1 = 0
  · rw [if_pos hlast, free_eq (Function.update_self ..)]
    simp [released, freedWith, hlast, hself]
  · rw [if_neg hlast]
    simp [released, freedWith, hlast, hself, hroot]

theorem bufferFree_leaf {b r : Buffer} (h0 : h.addr ≠ 0) (hself : h.addr ≠ h.origin)
    (hb : mem h.addr = some b) (hbroot : b.root = h.origin) (hr : mem h.origin = some r) :
    bufferFree mem h.addr =
      some (released mem h r (r.refcount - 1 = 0), freedWith h (r.refcount - 1 = 0)) := by
  -- the leaf is still there after the change at the root
  have hb' : ∀ x, Function.update mem h.origin x h.addr = some b := by
    intro x
    rw [Function.update_of_ne hself, hb]
  simp only [bufferFree, load, hb, h0, hbroot, hr, if_false, Option.bind_eq_bind,
    Option.bind_some, ne_eq, Ne.symm hself, not_false_eq_true, if_true, store_eq hr]
  by_cases hlast : r.refcount - 1 = 0
  · rw [if_pos hlast, free_eq (Function.update_self ..), Option.bind_some,
      Function.update_idem, free_eq (hb' none), Function.update_comm (Ne.symm hself)]
    simp [released, freedWith, hlast, hself]
  · rw [if_neg hlast, free_eq (hb' _), Function.update_comm (Ne.symm hself)]
    simp [released, freedWith, hlast, hself]

/-- What is allocated after a handle was freed was allocated before, and is not the
object of a leaf that was freed. -/
theorem released_eq_some {b r : Buffer} {last : Bool} (hr : mem h.origin = some r)
    (hb : released mem h r last a = some b) :
    ∃ b₀, mem a = some b₀ ∧ b₀.root = b.root ∧ b₀.length = b.length ∧
      (a = h.origin → last = false ∧ b.refcount = b₀.refcount - 1) ∧
      (a ≠ h.origin → a ≠ h.addr ∧ b.refcount = b₀.refcount) := by
  by_cases ha : a = h.origin
  · subst ha
    rw [released, Function.update_self] at hb
    cases last with
    | true => cases hb
    | false =>
      obtain rfl := Option.some.inj hb
      exact ⟨r, hr, rfl, rfl, fun _ => ⟨rfl, rfl⟩, fun hne => absurd rfl hne⟩
  · rw [released, Function.update_of_ne ha] at hb
    by_cases haddr : a = h.addr
    · rw [haddr, Function.update_self] at hb
      cases hb
    · rw [Function.update_of_ne haddr] at hb
      exact ⟨b, hb, rfl, rfl, fun heq => absurd heq ha, fun _ => ⟨haddr, rfl⟩⟩

/-- What a call does. A new reference is a slice of the whole length. -/
theorem step_cases {l : Label} (hstep : step s l = .ok s') :
    (∃ p size mem', p.toNat + headerSize.toNat + size.toNat < 2 ^ 64 ∧
      bufferNew s.mem p size = some mem' ∧
      s' = { mem := mem', handles := { addr := p, origin := p, source := none } :: s.handles }) ∨
    (∃ p h size mem', h ∈ s.handles ∧ bufferNewSlice s.mem p h.addr size = some mem' ∧
      s' = s.sliced p h mem') ∨
    (∃ h r, h ∈ s.handles ∧ bufferFree s.mem h.addr = some r ∧
      s' = { mem := r.1, handles := s.handles.erase h }) := by
  cases l with
  | new p size =>
    simp only [step] at hstep
    split_ifs at hstep with hfits
    cases hnew : bufferNew s.mem p size with
    | none => simp [hnew] at hstep
    | some mem' =>
      refine .inl ⟨p, size, mem', hfits, hnew, ?_⟩
      simpa [hnew] using hstep.symm
  | newRef p buf =>
    cases hfind : s.find buf with
    | none => simp [step, hfind] at hstep
    | some h =>
      obtain ⟨hh, rfl⟩ := mem_of_find hfind
      cases hload : load s.mem h.addr with
      | none => simp [step, hfind, bufferNewRef, hload] at hstep
      | some b =>
        cases hslice : bufferNewSlice s.mem p h.addr b.length with
        | none => simp [step, hfind, bufferNewRef, hload, hslice] at hstep
        | some mem' =>
          refine .inr (.inl ⟨p, h, b.length, mem', hh, hslice, ?_⟩)
          simpa [step, hfind, bufferNewRef, hload, hslice] using hstep.symm
  | newSlice p buf size =>
    cases hfind : s.find buf with
    | none => simp [step, hfind] at hstep
    | some h =>
      obtain ⟨hh, rfl⟩ := mem_of_find hfind
      cases hslice : bufferNewSlice s.mem p h.addr size with
      | none => simp [step, hfind, hslice] at hstep
      | some mem' =>
        refine .inr (.inl ⟨p, h, size, mem', hh, hslice, ?_⟩)
        simpa [step, hfind, hslice] using hstep.symm
  | free buf =>
    cases hfind : s.find buf with
    | none => simp [step, hfind] at hstep
    | some h =>
      obtain ⟨hh, rfl⟩ := mem_of_find hfind
      cases hfree : bufferFree s.mem h.addr with
      | none => simp [step, hfind, hfree] at hstep
      | some r =>
        refine .inr (.inr ⟨h, r, hh, hfree, ?_⟩)
        simpa [step, hfind, hfree] using hstep.symm

namespace Invariant

/-- No live handle is at an address where nothing is allocated, or derived from
it. -/
theorem ne_of_free (hinv : Invariant s) (hp : s.mem p = none) (hh : h ∈ s.handles) :
    h.addr ≠ p ∧ h.origin ≠ p := by
  obtain ⟨length, rootLength, hplaced⟩ := hinv.placed h hh
  refine ⟨?_, ?_⟩
  · rintro rfl
    obtain ⟨b, hb, -⟩ := exists_of_shape hplaced.self
    rw [hp] at hb
    cases hb
  · rintro rfl
    obtain ⟨b, hb, -⟩ := exists_of_shape hplaced.root
    rw [hp] at hb
    cases hb

theorem refs_eq_zero (hinv : Invariant s) (hp : s.mem p = none) : refs s p = 0 := by
  rw [refs, List.countP_eq_zero]
  intro h hh
  simpa using (hinv.ne_of_free hp hh).2

theorem addr_ne_zero (hinv : Invariant s) (hh : h ∈ s.handles) : h.addr ≠ 0 := by
  obtain ⟨length, rootLength, hplaced⟩ := hinv.placed h hh
  obtain ⟨b, hb, -⟩ := exists_of_shape hplaced.self
  exact hinv.null _ b hb

/-- Another handle, at a free address, can still be counted. -/
theorem refs_lt (hinv : Invariant s) (hp : s.mem p = none) (hp0 : p ≠ 0) (root : Addr) :
    refs s root + 1 < 2 ^ 64 := by
  have hnodup : (p :: s.handles.map Handle.addr).Nodup := by
    refine List.nodup_cons.mpr ⟨?_, hinv.nodup⟩
    intro hmem
    obtain ⟨h, hh, haddr⟩ := List.mem_map.mp hmem
    exact (hinv.ne_of_free hp hh).1 haddr
  have hnull : (0 : Addr) ∉ p :: s.handles.map Handle.addr := by
    intro hmem
    rcases List.mem_cons.mp hmem with h0 | hmem
    · exact hp0 h0.symm
    · obtain ⟨h, hh, haddr⟩ := List.mem_map.mp hmem
      exact hinv.addr_ne_zero hh haddr
  have hlen := length_lt_of_nodup hnodup hnull
  rw [List.length_cons, List.length_map] at hlen
  have hle : refs s root ≤ s.handles.length := List.countP_le_length
  omega

end Invariant

end Buffer

end Osi
