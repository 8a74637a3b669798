import Osi.Array.Basic
import Osi.Collection.Last

/-!
# The contents of an array

As long as no size exceeds 2 ^ 64, an array is the sequence of the elements that
were appended with success. The element with the index `i` is what stands in the
storage from `i * element_size` on, before and after the storage is moved and
reallocated, and all accesses stay in the blocks that were requested. A call that
returns false changes nothing.
-/

namespace Osi

open Memory Transition

namespace ArrayT

variable {s s' : State} {c c' : Client} {b : Block} {source : Source} {grant : Grant}
  {l : Label}

def State.stored (s : State) (k : ℕ) : Option UInt8 :=
  (s.block s.data).map fun b => b.bytes (s.data.base + k)

def byteAt (s : State) (index : UInt64) (k : ℕ) : Option UInt8 := do
  let (storage, offset) ← arrayAt s index
  let b ← s.block storage
  return b.bytes (storage.base + offset.toNat + k)

theorem copy_of_mem {bytes source : ℕ → UInt8} {offset count k : ℕ} (hk : k < count) :
    copy bytes offset count source (offset + k) = source k := by
  rw [copy, if_pos (by omega), Nat.add_sub_cancel_left]

theorem copy_of_not_mem {bytes source : ℕ → UInt8} {offset count k : ℕ}
    (hk : k < offset ∨ offset + count ≤ k) : copy bytes offset count source k = bytes k := by
  rw [copy, if_neg (by omega)]

@[simp] theorem setBytes_elementSize (s : State) (b : Block) (bytes : ℕ → UInt8)
    (storage : Storage) : (s.setBytes b bytes storage).elementSize = s.elementSize := by
  cases storage <;> rfl

@[simp] theorem setBytes_capacity (s : State) (b : Block) (bytes : ℕ → UInt8)
    (storage : Storage) : (s.setBytes b bytes storage).capacity = s.capacity := by
  cases storage <;> rfl

@[simp] theorem setBytes_data (s : State) (b : Block) (bytes : ℕ → UInt8)
    (storage : Storage) : (s.setBytes b bytes storage).data = s.data := by
  cases storage <;> rfl

theorem block_congr (hobject : s'.object = s.object) (hheap : s'.heap = s.heap)
    (storage : Storage) : s'.block storage = s.block storage := by
  cases storage with
  | internal => exact congrArg some hobject
  | heap p => exact congrFun hheap p

theorem block_setBytes (s : State) (b : Block) (bytes : ℕ → UInt8) (storage : Storage) :
    (s.setBytes b bytes storage).block storage = some { b with bytes := bytes } := by
  cases storage with
  | internal => rfl
  | heap p => simp [State.setBytes, State.block, load]

/-! ## One element more -/

/-- The state after an element was written behind the others. -/
def appended (s : State) (b : Block) (source : Source) : State :=
  { s.setBytes b (copy b.bytes (s.data.base + (s.length * s.elementSize).toNat)
      s.elementSize.toNat source.bytes) s.data with
    length := s.length + 1
    accesses := s.accesses ++
      [{ size := b.size.toNat
         offset := s.data.base + (s.length * s.elementSize).toNat
         count := s.elementSize.toNat },
       { size := source.size, offset := 0, count := s.elementSize.toNat }] }

theorem appendElement_eq (hb : s.block s.data = some b) (hlength : s.length < s.length + 1) :
    appendElement s source = some (appended s b source) := by
  have hindex : s.length + 1 - 1 = s.length := UInt64.add_sub_cancel _ _
  have hblock : State.block { s with length := s.length + 1 } s.data = some b :=
    (block_congr rfl rfl s.data).trans hb
  simp only [appendElement, arrayAt, hindex, if_pos hlength, memcpy, hblock, appended,
    Option.bind_eq_bind, Option.bind_some, Option.pure_def]
  cases hdata : s.data <;> simp [State.setBytes, hdata]

theorem block_appended (s : State) (b : Block) (source : Source) :
    (appended s b source).block (appended s b source).data =
      some { b with
        bytes := copy b.bytes (s.data.base + (s.length * s.elementSize).toNat)
          s.elementSize.toNat source.bytes } := by
  have hdata : (appended s b source).data = s.data := setBytes_data _ _ _ _
  rw [hdata]
  exact (block_congr rfl rfl s.data).trans (block_setBytes s b _ s.data)

/-- The new element stands behind the others, and these are as they were. -/
theorem stored_appended (hb : s.block s.data = some b) (source : Source) :
    (∀ k < s.elementSize.toNat, (appended s b source).stored
      ((s.length * s.elementSize).toNat + k) = some (source.bytes k)) ∧
    ∀ k < (s.length * s.elementSize).toNat, (appended s b source).stored k = s.stored k := by
  have hdata : (appended s b source).data = s.data := setBytes_data _ _ _ _
  constructor
  · intro k hk
    rw [State.stored, block_appended, hdata, Option.map_some, ← Nat.add_assoc]
    exact congrArg some (copy_of_mem hk)
  · intro k hk
    rw [State.stored, block_appended, hdata, Option.map_some, State.stored, hb, Option.map_some]
    exact congrArg some (copy_of_not_mem (.inl (by omega)))

/-! ## Growth -/

def grownBlock (s : State) (b : Block) (grant : Grant) : Block where
  size := (s.capacity + s.capacity / 2) * s.elementSize
  bytes :=
    if s.data = .internal then
      copy grant.bytes 0 (s.length * s.elementSize).toNat
        fun k => b.bytes (headerSize.toNat + k)
    else fun k =>
      if k < min b.size.toNat ((s.capacity + s.capacity / 2) * s.elementSize).toNat then
        b.bytes k
      else grant.bytes k

def growAccesses (s : State) : List Access :=
  if s.data = .internal then
    [{ size := ((s.capacity + s.capacity / 2) * s.elementSize).toNat
       offset := 0
       count := (s.length * s.elementSize).toNat }]
  else []

/-- `grow` with memory: the elements are in a new block. -/
theorem grow_eq (hb : s.block s.data = some b) (grant : Grant) :
    ∃ heap, grow s (some grant) = some
        ({ s with
            heap := heap
            data := .heap grant.addr
            capacity := s.capacity + s.capacity / 2
            accesses := s.accesses ++ growAccesses s }, true) ∧
      heap grant.addr = some (grownBlock s b grant) := by
  cases hdata : s.data with
  | internal =>
      rw [hdata] at hb
      obtain rfl := Option.some.inj hb
      refine ⟨Function.update s.heap grant.addr (some (grownBlock s s.object grant)), ?_,
        Function.update_self ..⟩
      simp [grow, realloc, hdata, memcpy, State.block, load, State.setBytes, growAccesses,
        grownBlock, Storage.base]
  | heap p =>
      rw [hdata] at hb
      have hload : load s.heap p = some b := hb
      refine ⟨Function.update (Function.update s.heap p none) grant.addr
        (some (grownBlock s b grant)), ?_, Function.update_self ..⟩
      simp [grow, realloc, hdata, hload, growAccesses, grownBlock]

theorem arrayAppendPtr_of_full (hfull : s.length = s.capacity) {answer : Option Grant}
    (hgrow : grow s answer = some (s', true)) (source : Source) :
    arrayAppendPtr s source answer = (appendElement s' source).map fun s => (s, true) := by
  cases happend : appendElement s' source <;>
    simp [arrayAppendPtr, hfull, hgrow, happend]

theorem arrayAppendPtr_of_room (hroom : s.length ≠ s.capacity) (source : Source)
    (answer : Option Grant) :
    arrayAppendPtr s source answer = (appendElement s source).map fun s => (s, true) := by
  cases happend : appendElement s source <;> simp [arrayAppendPtr, hroom, happend]

theorem stored_grownBlock (hb : s.block s.data = some b)
    (hsize : (s.length * s.elementSize).toNat ≤
      min b.size.toNat ((s.capacity + s.capacity / 2) * s.elementSize).toNat)
    (grant : Grant) {k : ℕ} (hk : k < (s.length * s.elementSize).toNat) :
    some ((grownBlock s b grant).bytes k) = s.stored k := by
  rw [State.stored, hb, Option.map_some, grownBlock]
  cases hdata : s.data with
  | internal =>
      have hcopy : copy grant.bytes 0 (s.length * s.elementSize).toNat
          (fun k => b.bytes (headerSize.toNat + k)) (0 + k) = b.bytes (headerSize.toNat + k) :=
        copy_of_mem hk
      rw [Nat.zero_add] at hcopy
      rw [if_pos rfl]
      exact congrArg some hcopy
  | heap p =>
      rw [if_neg (by simp), Storage.base, Nat.zero_add]
      exact congrArg some (if_pos (hk.trans_le hsize))

/-! ## The invariant -/

structure Holds (e : ℕ) (c : Client) : Prop where
  elementSize : c.state.elementSize.toNat = e
  length : c.state.length.toNat = c.appended.length
  length_le : c.appended.length ≤ c.state.capacity.toNat
  /-- so that half of the capacity is something -/
  capacity : 2 ≤ c.state.capacity.toNat
  fits : c.state.capacity.toNat * e < 2 ^ 64
  storage : ∃ b, c.state.block c.state.data = some b ∧
    c.state.data.base + c.state.capacity.toNat * e ≤ b.size.toNat
  contents : ∀ i source, c.appended[i]? = some source →
    ∀ k < e, c.state.stored (i * e + k) = some (source.bytes k)
  inBounds : ∀ a ∈ c.state.accesses, a.InBounds

namespace Holds

variable {e : ℕ} {sources : List Source}

theorem length_mul_le (h : Holds e ⟨s, sources⟩) :
    sources.length * e ≤ s.capacity.toNat * e := Nat.mul_le_mul_right e h.length_le

theorem toNat_length_mul (h : Holds e ⟨s, sources⟩) :
    (s.length * s.elementSize).toNat = sources.length * e := by
  have hle := h.length_mul_le
  have hfits : s.capacity.toNat * e < 2 ^ 64 := h.fits
  rw [UInt64.toNat_mul, h.elementSize, show s.length.toNat = sources.length from h.length]
  exact Nat.mod_eq_of_lt (hle.trans_lt hfits)

/-- An element that was appended before ends before the new one begins. -/
theorem offset_lt {i k : ℕ} (hi : i < sources.length) (hk : k < e) :
    i * e + k < sources.length * e := by
  have hle : (i + 1) * e ≤ sources.length * e := Nat.mul_le_mul_right e hi
  rw [Nat.add_mul, Nat.one_mul] at hle
  omega

theorem append (h : Holds e ⟨s, sources⟩)
    (hroom : sources.length < s.capacity.toNat) (hsource : e ≤ source.size) :
    ∃ s', appendElement s source = some s' ∧ Holds e ⟨s', sources ++ [source]⟩ := by
  obtain ⟨b, hb, hsize⟩ := h.storage
  have hmul := h.toNat_length_mul
  have helement : s.elementSize.toNat = e := h.elementSize
  have hlength : s.length.toNat = sources.length := h.length
  have hcapacity := s.capacity.toNat_lt
  have hnext : (s.length + 1).toNat = sources.length + 1 := by
    rw [UInt64.toNat_add, hlength, UInt64.toNat_one]
    exact Nat.mod_eq_of_lt (by omega)
  have hlt : s.length < s.length + 1 := by
    rw [UInt64.lt_iff_toNat_lt, hnext, hlength]
    exact Nat.lt_succ_self _
  have hend : sources.length * e + e ≤ s.capacity.toNat * e := by
    rw [← Nat.succ_mul]
    exact Nat.mul_le_mul_right e hroom
  obtain ⟨hnew, hold⟩ := stored_appended hb source
  rw [hmul] at hnew hold
  rw [helement] at hnew
  refine ⟨appended s b source, appendElement_eq hb hlt, ?_, ?_, ?_, ?_, ?_, ?_, ?_, ?_⟩
  · exact (congrArg UInt64.toNat (setBytes_elementSize ..)).trans helement
  · rw [List.length_append, List.length_singleton]
    exact hnext
  · rw [List.length_append, List.length_singleton]
    exact (congrArg UInt64.toNat (setBytes_capacity ..)).symm ▸ hroom
  · exact (congrArg UInt64.toNat (setBytes_capacity ..)).symm ▸ h.capacity
  · exact (congrArg UInt64.toNat (setBytes_capacity ..)).symm ▸ h.fits
  · refine ⟨_, block_appended s b source, ?_⟩
    simpa [appended] using hsize
  · intro i source' hi k hk
    rcases Nat.lt_or_ge i sources.length with hlt | hge
    · rw [List.getElem?_append_left hlt] at hi
      refine (hold _ (offset_lt hlt hk)).trans ?_
      exact h.contents i source' hi k hk
    · obtain ⟨hi', rfl⟩ : i = sources.length ∧ source = source' := by
        rw [List.getElem?_append_right hge] at hi
        have hzero : i - sources.length = 0 := by
          by_contra hne
          rw [List.getElem?_eq_none (by simp; omega)] at hi
          cases hi
        rw [hzero] at hi
        exact ⟨by omega, Option.some.inj hi⟩
      rw [hi']
      exact hnew k hk
  · intro a ha
    rcases List.mem_append.mp ha with ha | ha
    · exact h.inBounds a ha
    · rcases List.mem_cons.mp ha with rfl | ha
      · change s.data.base + (s.length * s.elementSize).toNat + s.elementSize.toNat ≤ b.size.toNat
        change s.data.base + s.capacity.toNat * e ≤ b.size.toNat at hsize
        omega
      · rw [List.mem_singleton.mp ha]
        change 0 + s.elementSize.toNat ≤ source.size
        omega

theorem grow (h : Holds e ⟨s, sources⟩)
    (hfits : (s.capacity.toNat + s.capacity.toNat / 2) * e < 2 ^ 64) (he : 0 < e)
    (grant : Grant) :
    ∃ s', ArrayT.grow s (some grant) = some (s', true) ∧ Holds e ⟨s', sources⟩ ∧
      s.capacity.toNat < s'.capacity.toNat := by
  obtain ⟨b, hb, hsize⟩ := h.storage
  dsimp only at hb hsize
  have hmul := h.toNat_length_mul
  have hmul_le := h.length_mul_le
  have helement : s.elementSize.toNat = e := h.elementSize
  have htwo : 2 ≤ s.capacity.toNat := h.capacity
  have hle : sources.length ≤ s.capacity.toNat := h.length_le
  have hself : s.capacity.toNat + s.capacity.toNat / 2 ≤
      (s.capacity.toNat + s.capacity.toNat / 2) * e := Nat.le_mul_of_pos_right _ he
  have hnew : (s.capacity + s.capacity / 2).toNat = s.capacity.toNat + s.capacity.toNat / 2 := by
    rw [UInt64.toNat_add, UInt64.toNat_div]
    exact Nat.mod_eq_of_lt (hself.trans_lt hfits)
  have hnewSize : ((s.capacity + s.capacity / 2) * s.elementSize).toNat =
      (s.capacity.toNat + s.capacity.toNat / 2) * e := by
    rw [UInt64.toNat_mul, hnew, helement]
    exact Nat.mod_eq_of_lt hfits
  have hgrows : s.capacity.toNat * e ≤ (s.capacity.toNat + s.capacity.toNat / 2) * e :=
    Nat.mul_le_mul_right e (Nat.le_add_right _ _)
  have hmin : (s.length * s.elementSize).toNat ≤
      min b.size.toNat ((s.capacity + s.capacity / 2) * s.elementSize).toNat := by
    rw [hmul, hnewSize]
    omega
  obtain ⟨heap, hgrow, hblock⟩ := grow_eq hb grant
  refine ⟨_, hgrow, ⟨helement, h.length, ?_, ?_, ?_, ?_, ?_, ?_⟩, ?_⟩
  · dsimp only
    omega
  · dsimp only
    omega
  · dsimp only
    rwa [hnew]
  · refine ⟨_, hblock, ?_⟩
    dsimp only [grownBlock, Storage.base]
    rw [hnew, hnewSize, Nat.zero_add]
  · intro i source hi k hk
    have hlt := offset_lt (Collection.lt_length_of_getElem? hi) hk
    have hgrown := stored_grownBlock hb hmin grant (hmul ▸ hlt)
    refine Eq.trans ?_ (hgrown.trans (h.contents i source hi k hk))
    refine (congrArg (Option.map fun b => b.bytes (0 + (i * e + k))) hblock).trans ?_
    rw [Option.map_some, Nat.zero_add]
  · intro a ha
    rcases List.mem_append.mp ha with ha | ha
    · exact h.inBounds a ha
    · rw [growAccesses] at ha
      split at ha
      · rw [List.mem_singleton.mp ha, Access.InBounds]
        dsimp only
        omega
      · cases ha
  · dsimp only
    omega

/-- A call that finds room, or memory to grow. -/
theorem appendPtr (h : Holds e ⟨s, sources⟩) (he : 0 < e) (hsource : e ≤ source.size)
    (answer : Option Grant)
    (hfits : s.length = s.capacity →
      (s.capacity.toNat + s.capacity.toNat / 2) * e < 2 ^ 64) :
    (s.length = s.capacity ∧ answer = none ∧
      arrayAppendPtr s source answer = some (s, false)) ∨
    ∃ s', arrayAppendPtr s source answer = some (s', true) ∧
      Holds e ⟨s', sources ++ [source]⟩ := by
  have hlength : s.length.toNat = sources.length := h.length
  have hle : sources.length ≤ s.capacity.toNat := h.length_le
  by_cases hfull : s.length = s.capacity
  · cases answer with
    | none => exact .inl ⟨hfull, rfl, by simp [arrayAppendPtr, hfull, ArrayT.grow]⟩
    | some grant =>
        obtain ⟨s₁, hgrow, h₁, hlt⟩ := h.grow (hfits hfull) he grant
        rw [← hfull, hlength] at hlt
        obtain ⟨s₂, happend, h₂⟩ := h₁.append hlt hsource
        exact .inr ⟨s₂, by rw [arrayAppendPtr_of_full hfull hgrow, happend]; rfl, h₂⟩
  · have hlt : sources.length < s.capacity.toNat := by
      refine Nat.lt_of_le_of_ne hle fun heq => hfull ?_
      exact UInt64.toNat_inj.mp (hlength.trans heq)
    obtain ⟨s₁, happend, h₁⟩ := h.append hlt hsource
    exact .inr ⟨s₁, by rw [arrayAppendPtr_of_room hfull, happend]; rfl, h₁⟩

end Holds

/-- The source has the bytes of an element, and a size that is requested does not
exceed 2 ^ 64. -/
def Sized (c : Client) (l : Label) : Prop :=
  c.state.elementSize.toNat ≤ l.source.size ∧
    (c.state.length = c.state.capacity →
      (c.state.capacity.toNat + c.state.capacity.toNat / 2) * c.state.elementSize.toNat < 2 ^ 64)

instance (c : Client) (l : Label) : Decidable (Sized c l) :=
  inferInstanceAs (Decidable (_ ∧ (_ → _)))

theorem call_eq (s : State) (l : Label) : call s l = arrayAppendPtr s l.source l.answer := by
  cases l <;> rfl

theorem step_eq (hallowed : allowed c.state l = true) {r : State × Bool}
    (hcall : arrayAppendPtr c.state l.source l.answer = some r) :
    step c l = .ok
      { state := r.1
        appended := if r.2 then c.appended ++ [l.source] else c.appended } := by
  simp [step, hallowed, call_eq, hcall]

theorem allowed_of_step (h : step c l = .ok c') : allowed c.state l = true := by
  by_contra hnot
  simp [step, hnot] at h

/-- What a call does: it fails and changes nothing, or the element is appended. -/
theorem Holds.step_cases {e : ℕ} (h : Holds e c) (he : 0 < e) (hsized : Sized c l)
    (hallowed : allowed c.state l = true) :
    (c.state.length = c.state.capacity ∧ l.answer = none ∧ step c l = .ok c) ∨
    ∃ c', step c l = .ok c' ∧ c'.appended = c.appended ++ [l.source] ∧ Holds e c' := by
  obtain ⟨s, sources⟩ := c
  obtain ⟨hsource, hfits⟩ := hsized
  rw [h.elementSize] at hsource hfits
  rcases h.appendPtr he hsource l.answer hfits with ⟨hfull, hnone, hcall⟩ | ⟨s', hcall, h'⟩
  · exact .inl ⟨hfull, hnone, step_eq hallowed hcall⟩
  · exact .inr ⟨_, step_eq hallowed hcall, rfl, h'⟩

theorem holds_start {mem : Heap Block} {elementSize : UInt64} {s₀ : State}
    (hnew : arrayNew mem elementSize = some s₀)
    (hfits : headerSize.toNat + 16 * elementSize.toNat < 2 ^ 64) :
    0 < elementSize.toNat ∧ Holds elementSize.toNat (start s₀) := by
  unfold arrayNew at hnew
  split at hnew
  · cases hnew
  · rename_i hzero
    obtain rfl := Option.some.inj hnew
    have hsixteen : internalElements.toNat = 16 := rfl
    have hobject : (headerSize + elementSize * internalElements).toNat =
        headerSize.toNat + 16 * elementSize.toNat := by
      rw [UInt64.toNat_add, UInt64.toNat_mul, hsixteen, Nat.mul_comm,
        Nat.mod_eq_of_lt (Nat.lt_of_le_of_lt (Nat.le_add_left _ _) hfits)]
      exact Nat.mod_eq_of_lt hfits
    refine ⟨?_, rfl, rfl, Nat.zero_le _, ?_, ?_, ⟨_, rfl, ?_⟩, ?_, ?_⟩
    · refine Nat.pos_of_ne_zero fun h => hzero ?_
      exact UInt64.toNat_inj.mp h
    · exact le_of_eq_of_le rfl (by decide : 2 ≤ 16)
    · exact Nat.lt_of_le_of_lt (Nat.le_add_left _ _) hfits
    · exact hobject.ge
    · intro i source hi
      cases hi
    · intro a ha
      rw [List.mem_singleton.mp ha, Access.InBounds]
      dsimp only
      omega

theorem holds_of_run {mem : Heap Block} {elementSize : UInt64} {s₀ : State} {labels : List Label}
    (hnew : arrayNew mem elementSize = some s₀)
    (hfits : headerSize.toNat + 16 * elementSize.toNat < 2 ^ 64)
    (hrun : Run (Guarded Sized (Next step)) (start s₀) labels c) :
    Holds elementSize.toNat c := by
  obtain ⟨he, hstart⟩ := holds_start hnew hfits
  refine hrun.invariant ?_ hstart
  rintro c l c' h ⟨hsized, hstep⟩
  rcases h.step_cases he hsized (allowed_of_step hstep) with ⟨-, -, hsame⟩ | ⟨c'', hstep', -, h'⟩
  · obtain rfl := Except.ok.inj (hsame.symm.trans hstep)
    exact h
  · obtain rfl := Except.ok.inj (hstep'.symm.trans hstep)
    exact h'

theorem Holds.byteAt_eq {e : ℕ} (h : Holds e c) {index : UInt64}
    (hindex : index < c.state.length) (k : ℕ) :
    byteAt c.state index k = c.state.stored (index.toNat * e + k) := by
  have hlt : index.toNat < c.appended.length := by
    rw [← h.length]
    exact UInt64.lt_iff_toNat_lt.mp hindex
  have hle : index.toNat * e ≤ c.state.capacity.toNat * e :=
    Nat.mul_le_mul_right e (hlt.le.trans h.length_le)
  have hmul : (index * c.state.elementSize).toNat = index.toNat * e := by
    rw [UInt64.toNat_mul, h.elementSize]
    exact Nat.mod_eq_of_lt (hle.trans_lt h.fits)
  obtain ⟨b, hb, -⟩ := h.storage
  simp [byteAt, arrayAt, hindex, hb, State.stored, hmul, Nat.add_assoc]

/-- For every element size and every sequence of calls, with any outcome of each
`realloc`, in which all sizes that are requested are below 2 ^ 64: the length is at
most the capacity, `array_at` leads to the bytes of the appended element, and all
accesses stay in the blocks. Every further call returns, and one that returns false
changes nothing. -/
theorem array_contents (mem : Heap Block) (elementSize : UInt64) (s₀ : State)
    (hnew : arrayNew mem elementSize = some s₀)
    (hfits : headerSize.toNat + 16 * elementSize.toNat < 2 ^ 64) (labels : List Label)
    (c : Client) (hrun : Run (Guarded Sized (Next step)) (start s₀) labels c) :
    c.state.length ≤ c.state.capacity ∧
    c.state.length.toNat = c.appended.length ∧
    (∀ index source, c.appended[UInt64.toNat index]? = some source →
      ∀ k < elementSize.toNat, byteAt c.state index k = some (source.bytes k)) ∧
    (∀ a ∈ c.state.accesses, a.InBounds) ∧
    ∀ l, Sized c l → allowed c.state l = true →
      (call c.state l = some (c.state, false) ∧ step c l = .ok c) ∨
      ∃ s', call c.state l = some (s', true) ∧
        step c l = .ok { state := s', appended := c.appended ++ [l.source] } := by
  obtain ⟨he, -⟩ := holds_start hnew hfits
  have h := holds_of_run hnew hfits hrun
  refine ⟨?_, h.length, ?_, h.inBounds, ?_⟩
  · rw [UInt64.le_iff_toNat_le, h.length]
    exact h.length_le
  · intro index source hindex k hk
    have hlt : index < c.state.length := by
      rw [UInt64.lt_iff_toNat_lt, h.length]
      exact Collection.lt_length_of_getElem? hindex
    rw [h.byteAt_eq hlt]
    exact h.contents _ source hindex k hk
  · intro l hsized hallowed
    obtain ⟨hsource, hsize⟩ := hsized
    rw [h.elementSize] at hsource hsize
    rw [call_eq]
    rcases h.appendPtr he hsource l.answer hsize with ⟨-, -, hcall⟩ | ⟨s', hcall, -⟩
    · exact .inl ⟨hcall, step_eq hallowed hcall⟩
    · exact .inr ⟨s', hcall, step_eq hallowed hcall⟩

/-- Elements of two bytes: the internal storage is filled, an append fails, and the next
one moves the elements. -/
def fillAndMove : List Label :=
  List.replicate 16 (.appendPtr ⟨2, fun k => UInt8.ofNat (5 + k)⟩ none) ++
    [.appendPtr ⟨2, fun _ => 9⟩ none, .appendPtr ⟨2, fun _ => 7⟩ (some ⟨4096, fun _ => 1⟩)]

theorem array_contents_fillAndMove :
    ∃ (s₀ : State) (c : Client), arrayNew (fun _ => none) 2 = some s₀ ∧
      Run (Guarded Sized (Next step)) (start s₀) fillAndMove c ∧ c.state.length = 17 ∧
      c.state.data = .heap 4096 ∧ c.state.length ≤ c.state.capacity ∧
      byteAt c.state 3 1 = some 6 ∧ byteAt c.state 16 0 = some 7 := by
  obtain ⟨s₀, hnew⟩ : ∃ s₀, arrayNew (fun _ => none) 2 = some s₀ := ⟨_, rfl⟩
  have hend : ((arrayNew (fun _ => none) 2).bind fun s₀ =>
      (exec (fun c l => decide (Sized c l)) step (start s₀) fillAndMove).filter fun c =>
        decide (c.state.length = 17 ∧ c.state.data = .heap 4096 ∧
          (c.appended[3]?.map fun source => source.bytes 1) = some 6 ∧
          (c.appended[16]?.map fun source => source.bytes 0) = some 7)).isSome = true := by
    decide +kernel
  rw [hnew] at hend
  obtain ⟨c, hc⟩ := Option.isSome_iff_exists.mp hend
  obtain ⟨hc, hend⟩ := Option.filter_eq_some_iff.mp hc
  obtain ⟨hlength, hdata, hthree, hsixteen⟩ := of_decide_eq_true hend
  have hrun := Run.of_exec hc
  obtain ⟨hle, -, hbytes, -⟩ := array_contents _ 2 s₀ hnew (by decide) fillAndMove c hrun
  obtain ⟨source, hsource, hbyte⟩ := Option.map_eq_some_iff.mp hthree
  obtain ⟨source', hsource', hbyte'⟩ := Option.map_eq_some_iff.mp hsixteen
  refine ⟨s₀, c, hnew, hrun, hlength, hdata, hle, ?_, ?_⟩
  · rw [← hbyte]
    exact hbytes 3 source hsource 1 (by decide)
  · rw [← hbyte']
    exact hbytes 16 source' hsource' 0 (by decide)

end ArrayT

end Osi
