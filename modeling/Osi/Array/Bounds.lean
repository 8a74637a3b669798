import Osi.Array.Contents

/-!
# The bounds of an array

Nothing checks the sizes that an array computes. When every `realloc` succeeds, the
capacity depends on the number of elements only, and so does the request at which
a product wraps around. Up to there the blocks are as large as the elements need;
the first request that wraps is too small, and the element that it was made for is
written outside of it. The internal storage may be too small and still have room
for a few elements. `array_append_value` passes four bytes whatever the size of an
element is.
-/

namespace Osi

open Memory Transition

namespace ArrayT

variable {s s' : State} {c c' : Client} {b : Block} {source : Source} {l : Label}
  {e : UInt64} {n : ℕ}

/-- The capacity for `n` elements, if it does not wrap around. -/
def capacityAfter : ℕ → ℕ
  | 0 => 16
  | n + 1 => if n = capacityAfter n then n + n / 2 else capacityAfter n

theorem le_capacityAfter (n : ℕ) : n ≤ capacityAfter n ∧ 16 ≤ capacityAfter n := by
  induction n with
  | zero => exact ⟨Nat.zero_le _, Nat.le_refl _⟩
  | succ n ih =>
      rw [capacityAfter]
      split <;> omega

theorem capacityAfter_of_le (hn : n ≤ 16) : capacityAfter n = 16 := by
  induction n with
  | zero => rfl
  | succ n ih => rw [capacityAfter, ih (by omega), if_neg (by omega)]

theorem capacityAfter_le_succ (n : ℕ) : capacityAfter n ≤ capacityAfter (n + 1) := by
  rw [capacityAfter]
  split <;> omega

/-- The requests for `n` elements are large enough: what `array_new` has requested,
modulo 2 ^ 64, for up to 16 of them, and the last `realloc` for more. -/
structure Stores (e : UInt64) (n : ℕ) : Prop where
  object : headerSize.toNat + min n 16 * e.toNat ≤
    (headerSize + e * internalElements).toNat
  block : 16 < n → capacityAfter n * e.toNat < 2 ^ 64

theorem Stores.of_succ (h : Stores e (n + 1)) : Stores e n := by
  refine ⟨?_, fun hn => ?_⟩
  · have hle : min n 16 * e.toNat ≤ min (n + 1) 16 * e.toNat :=
      Nat.mul_le_mul_right _ (by omega)
    have hobject := h.object
    omega
  · exact (Nat.mul_le_mul_right _ (capacityAfter_le_succ n)).trans_lt (h.block (by omega))

/-! ## The accesses of a call -/

def callAccesses (s : State) (b : Block) (source : Source) : List Access :=
  (if s.length = s.capacity then growAccesses s ++
      [{ size := ((s.capacity + s.capacity / 2) * s.elementSize).toNat
         offset := (s.length * s.elementSize).toNat
         count := s.elementSize.toNat }]
    else
      [{ size := b.size.toNat
         offset := s.data.base + (s.length * s.elementSize).toNat
         count := s.elementSize.toNat }]) ++
    [{ size := source.size, offset := 0, count := s.elementSize.toNat }]

def Granted (c : Client) (l : Label) : Prop :=
  c.state.length = c.state.capacity → l.answer.isSome = true

instance (c : Client) (l : Label) : Decidable (Granted c l) :=
  inferInstanceAs (Decidable (_ → _))

theorem eq_appended (h : appendElement s source = some s') (hb : s.block s.data = some b) :
    s' = appended s b source := by
  by_cases hlength : s.length < s.length + 1
  · exact Option.some.inj (h.symm.trans (appendElement_eq hb hlength))
  · have hindex : s.length + 1 - 1 = s.length := UInt64.add_sub_cancel _ _
    simp [appendElement, arrayAt, hindex, hlength] at h

/-- What one call does, when it gets the memory it needs. -/
structure Performs (s : State) (b : Block) (source : Source) (s' : State) : Prop where
  elementSize : s'.elementSize = s.elementSize
  length : s'.length = s.length + 1
  accesses : s'.accesses = s.accesses ++ callAccesses s b source
  room : s.length ≠ s.capacity → s'.capacity = s.capacity ∧ s'.data = s.data ∧
    ∃ b', s'.block s'.data = some b' ∧ b'.size = b.size
  grown : s.length = s.capacity → s'.capacity = s.capacity + s.capacity / 2 ∧
    s'.data ≠ .internal ∧ ∃ b', s'.block s'.data = some b' ∧
      b'.size = (s.capacity + s.capacity / 2) * s.elementSize

theorem Performs.exists_block (h : Performs s b source s') :
    ∃ b', s'.block s'.data = some b' := by
  by_cases hfull : s.length = s.capacity
  · obtain ⟨-, -, b', hb', -⟩ := h.grown hfull
    exact ⟨b', hb'⟩
  · obtain ⟨-, -, b', hb', -⟩ := h.room hfull
    exact ⟨b', hb'⟩

theorem performs_of_append (hb : s.block s.data = some b) (hroom : s.length ≠ s.capacity)
    (h : appendElement s source = some s') : Performs s b source s' := by
  obtain rfl := eq_appended h hb
  refine ⟨setBytes_elementSize .., rfl, ?_, fun _ => ?_, fun hfull => absurd hfull hroom⟩
  · rw [callAccesses, if_neg hroom]
    rfl
  · exact ⟨setBytes_capacity .., setBytes_data .., _, block_appended s b source, rfl⟩

theorem performs_of_grow (hb : s.block s.data = some b) (hfull : s.length = s.capacity)
    (grant : Grant) {s₁ : State} (hgrow : grow s (some grant) = some (s₁, true))
    (h : appendElement s₁ source = some s') : Performs s b source s' := by
  obtain ⟨heap, hgrow', hblock⟩ := grow_eq hb grant
  obtain ⟨rfl, -⟩ := Prod.mk.inj (Option.some.inj (hgrow.symm.trans hgrow'))
  obtain rfl := eq_appended h hblock
  refine ⟨setBytes_elementSize .., rfl, ?_, fun hroom => absurd hfull hroom, fun _ => ?_⟩
  · rw [callAccesses, if_pos hfull]
    simp [appended, Storage.base, grownBlock]
  · refine ⟨setBytes_capacity .., ?_, _, block_appended _ _ source, rfl⟩
    intro hinternal
    cases (setBytes_data ..).symm.trans hinternal

theorem performs_of_step (hb : c.state.block c.state.data = some b) (hgranted : Granted c l)
    (h : step c l = .ok c') : Performs c.state b l.source c'.state := by
  have hcall : ∃ r, arrayAppendPtr c.state l.source l.answer = some r ∧ c'.state = r.1 := by
    have hallowed := allowed_of_step h
    cases hr : arrayAppendPtr c.state l.source l.answer with
    | none => simp [step, hallowed, call_eq, hr] at h
    | some r =>
        refine ⟨r, rfl, ?_⟩
        obtain rfl := Except.ok.inj ((step_eq hallowed hr).symm.trans h)
        rfl
  obtain ⟨⟨s', r⟩, hcall, rfl⟩ := hcall
  by_cases hfull : c.state.length = c.state.capacity
  · obtain ⟨grant, hanswer⟩ := Option.isSome_iff_exists.mp (hgranted hfull)
    obtain ⟨heap, hgrow, -⟩ := grow_eq hb grant
    rw [hanswer, arrayAppendPtr_of_full hfull hgrow] at hcall
    obtain ⟨s₂, happend, hs₂⟩ := Option.map_eq_some_iff.mp hcall
    obtain ⟨rfl, -⟩ := Prod.mk.inj hs₂
    exact performs_of_grow hb hfull grant hgrow happend
  · rw [arrayAppendPtr_of_room hfull] at hcall
    obtain ⟨s₂, happend, hs₂⟩ := Option.map_eq_some_iff.mp hcall
    obtain ⟨rfl, -⟩ := Prod.mk.inj hs₂
    exact performs_of_append hb hfull happend

/-! ## The blocks of `n` elements -/

/-- The array after `n` calls, if nothing was written outside of a block. -/
structure Shape (e : UInt64) (s : State) (n : ℕ) (b : Block) : Prop where
  elementSize : s.elementSize = e
  length : s.length.toNat = n
  capacity : s.capacity.toNat = capacityAfter n
  block : s.block s.data = some b
  storage : n ≤ 16 ∧ s.data = .internal ∧ b.size = headerSize + e * internalElements ∨
    16 < n ∧ s.data ≠ .internal ∧ b.size.toNat = capacityAfter n * e.toNat

namespace Shape

theorem toNat_length_mul (h : Shape e s n b) (hstores : Stores e n) :
    (s.length * s.elementSize).toNat = n * e.toNat := by
  rw [UInt64.toNat_mul, h.elementSize, h.length]
  apply Nat.mod_eq_of_lt
  rcases Nat.lt_or_ge 16 n with hlt | hge
  · exact (Nat.mul_le_mul_right _ (le_capacityAfter n).1).trans_lt (hstores.block hlt)
  · have hobject := hstores.object
    rw [Nat.min_eq_left hge] at hobject
    have hbound := (headerSize + e * internalElements).toNat_lt
    omega

/-- The new capacity may wrap around, and the request does so exactly if the product
does. -/
theorem toNat_request (h : Shape e s n b) (hfull : n = capacityAfter n) :
    ((s.capacity + s.capacity / 2) * s.elementSize).toNat =
      (n + n / 2) * e.toNat % 2 ^ 64 := by
  rw [UInt64.toNat_mul, UInt64.toNat_add, UInt64.toNat_div, h.capacity, ← hfull, h.elementSize,
    Nat.mod_mul_mod]
  rfl

theorem full_iff (h : Shape e s n b) : s.length = s.capacity ↔ n = capacityAfter n := by
  rw [← UInt64.toNat_inj, h.length, h.capacity]

/-- A call that finds room writes in the block exactly if the block is large enough for
one more element. -/
theorem inBounds_of_room (h : Shape e s n b) (hstores : Stores e n)
    (hroom : n ≠ capacityAfter n) :
    s.data.base + (s.length * s.elementSize).toNat + s.elementSize.toNat ≤ b.size.toNat ↔
      Stores e (n + 1) := by
  have hmul : (n + 1) * e.toNat = n * e.toNat + e.toNat := Nat.succ_mul _ _
  have hcapacity : capacityAfter (n + 1) = capacityAfter n := by
    rw [capacityAfter, if_neg hroom]
  rw [h.toNat_length_mul hstores, h.elementSize]
  rcases h.storage with ⟨hn, hdata, hsize⟩ | ⟨hn, hdata, hsize⟩
  · rw [capacityAfter_of_le hn] at hroom
    rw [hdata, hsize, Nat.add_assoc, ← hmul]
    constructor
    · intro hle
      refine ⟨?_, fun hlt => by omega⟩
      rw [Nat.min_eq_left (by omega)]
      exact hle
    · intro hnext
      have hobject := hnext.object
      rwa [Nat.min_eq_left (by omega)] at hobject
  · have hbase : s.data.base = 0 := by
      cases hstorage : s.data with
      | internal => exact absurd hstorage hdata
      | heap p => rfl
    have hlt : n + 1 ≤ capacityAfter n := by
      have hle := (le_capacityAfter n).1
      omega
    refine iff_of_true ?_ ⟨?_, fun _ => ?_⟩
    · rw [hbase, hsize, Nat.zero_add, ← hmul]
      exact Nat.mul_le_mul_right _ hlt
    · have hobject := hstores.object
      rwa [Nat.min_eq_right (by omega)] at hobject ⊢
    · rw [hcapacity]
      exact hstores.block hn

/-- A call that makes the array grow writes in the new block exactly if the request
does not wrap around. -/
theorem inBounds_of_full (h : Shape e s n b) (hstores : Stores e n) (he : 0 < e.toNat)
    (hfull : n = capacityAfter n) :
    ((∀ a ∈ growAccesses s, a.InBounds) ∧
      (s.length * s.elementSize).toNat + s.elementSize.toNat ≤
        ((s.capacity + s.capacity / 2) * s.elementSize).toNat) ↔
      Stores e (n + 1) := by
  have hsixteen := (le_capacityAfter n).2
  have hcapacity : capacityAfter (n + 1) = n + n / 2 := by rw [capacityAfter, if_pos hfull]
  have hmul := h.toNat_length_mul hstores
  have hrequest := h.toNat_request hfull
  have hsplit : (n + n / 2) * e.toNat = n * e.toNat + n / 2 * e.toNat := Nat.add_mul ..
  have hhalf : 2 * (n / 2 * e.toNat) ≤ n * e.toNat := by
    rw [← Nat.mul_assoc]
    exact Nat.mul_le_mul_right _ (by omega)
  have hone : e.toNat ≤ n / 2 * e.toNat := Nat.le_mul_of_pos_left _ (by omega)
  have hbound : n * e.toNat < 2 ^ 64 := by
    rw [← hmul]
    exact UInt64.toNat_lt _
  have hobject : headerSize.toNat + min (n + 1) 16 * e.toNat ≤
      (headerSize + e * internalElements).toNat := by
    have hobject := hstores.object
    rwa [Nat.min_eq_right (by omega)] at hobject ⊢
  rw [hrequest, hmul, h.elementSize]
  have hiff : n * e.toNat + e.toNat ≤ (n + n / 2) * e.toNat % 2 ^ 64 ↔
      (n + n / 2) * e.toNat < 2 ^ 64 := by
    constructor
    · intro hle
      by_contra hge
      rw [Nat.mod_eq_sub_mod (by omega), Nat.mod_eq_of_lt (by omega)] at hle
      omega
    · intro hlt
      rw [Nat.mod_eq_of_lt hlt]
      omega
  rw [hiff]
  constructor
  · rintro ⟨-, hlt⟩
    exact ⟨hobject, fun _ => by rwa [hcapacity]⟩
  · intro hnext
    have hlt := hnext.block (by omega)
    rw [hcapacity] at hlt
    refine ⟨fun a ha => ?_, hlt⟩
    rw [growAccesses] at ha
    split at ha
    · rw [List.mem_singleton.mp ha, Access.InBounds]
      dsimp only
      rw [hrequest, hmul, Nat.mod_eq_of_lt hlt]
      omega
    · cases ha

/-- The accesses of a call are in bounds exactly if the blocks are large enough for one
more element and the source is not shorter than it. -/
theorem callAccesses_iff (h : Shape e s n b) (hstores : Stores e n) (he : 0 < e.toNat)
    (source : Source) :
    (∀ a ∈ callAccesses s b source, a.InBounds) ↔
      Stores e (n + 1) ∧ e.toNat ≤ source.size := by
  have hsource : Access.InBounds
      { size := source.size, offset := 0, count := s.elementSize.toNat } ↔
      e.toNat ≤ source.size := by
    rw [Access.InBounds, h.elementSize]
    dsimp only
    rw [Nat.zero_add]
  rw [callAccesses, List.forall_mem_append, List.forall_mem_singleton, hsource]
  refine and_congr_left fun _ => ?_
  by_cases hfull : n = capacityAfter n
  · rw [if_pos (h.full_iff.mpr hfull), List.forall_mem_append, List.forall_mem_singleton]
    exact h.inBounds_of_full hstores he hfull
  · rw [if_neg fun heq => hfull (h.full_iff.mp heq), List.forall_mem_singleton]
    exact h.inBounds_of_room hstores hfull

theorem next (h : Shape e s n b) (hperforms : Performs s b source s') (he : 0 < e.toNat)
    (hstores : Stores e (n + 1)) : ∃ b', Shape e s' (n + 1) b' := by
  have hbound : 16 < n + 1 → capacityAfter (n + 1) < 2 ^ 64 := fun hlt =>
    (Nat.le_mul_of_pos_right _ he).trans_lt (hstores.block hlt)
  have hlength : s'.length.toNat = n + 1 := by
    have hle := (le_capacityAfter (n + 1)).1
    rw [hperforms.length, UInt64.toNat_add, h.length, UInt64.toNat_one]
    exact Nat.mod_eq_of_lt (by omega)
  have helement := hperforms.elementSize.trans h.elementSize
  by_cases hfull : n = capacityAfter n
  · have hsixteen := (le_capacityAfter n).2
    have hcapacity : capacityAfter (n + 1) = n + n / 2 := by rw [capacityAfter, if_pos hfull]
    obtain ⟨hgrown, hdata, b', hb', hsize⟩ := hperforms.grown (h.full_iff.mpr hfull)
    refine ⟨b', helement, hlength, ?_, hb', .inr ⟨by omega, hdata, ?_⟩⟩
    · rw [hgrown, UInt64.toNat_add, UInt64.toNat_div, h.capacity, ← hfull, hcapacity]
      exact Nat.mod_eq_of_lt (hcapacity ▸ hbound (by omega))
    · rw [hsize, h.toNat_request hfull, hcapacity]
      exact Nat.mod_eq_of_lt (hcapacity ▸ hstores.block (by omega))
  · have hcapacity : capacityAfter (n + 1) = capacityAfter n := by
      rw [capacityAfter, if_neg hfull]
    obtain ⟨hsame, hdata, b', hb', hsize⟩ :=
      hperforms.room fun heq => hfull (h.full_iff.mp heq)
    refine ⟨b', helement, hlength, ?_, hb', ?_⟩
    · rw [hsame, h.capacity, hcapacity]
    · rw [hdata, hsize, hcapacity]
      refine h.storage.imp ?_ ?_
      · rintro ⟨hn, hinternal, hobject⟩
        rw [capacityAfter_of_le hn] at hfull
        exact ⟨by omega, hinternal, hobject⟩
      · rintro ⟨hn, hheap, hblock⟩
        exact ⟨by omega, hheap, hblock⟩

end Shape

theorem shape_start {mem : Heap Block} {s₀ : State} (hnew : arrayNew mem e = some s₀) :
    0 < e.toNat ∧ Shape e s₀ 0 s₀.object ∧
      ((∀ a ∈ s₀.accesses, a.InBounds) ↔ Stores e 0) := by
  unfold arrayNew at hnew
  split at hnew
  · cases hnew
  · rename_i hzero
    obtain rfl := Option.some.inj hnew
    refine ⟨?_, ⟨rfl, rfl, rfl, rfl, .inl ⟨by omega, rfl, rfl⟩⟩, ?_⟩
    · exact Nat.pos_of_ne_zero fun h => hzero (UInt64.toNat_inj.mp h)
    · rw [List.forall_mem_singleton, Access.InBounds]
      dsimp only
      constructor
      · intro hle
        exact ⟨by simpa using hle, fun hlt => by omega⟩
      · intro hstores
        simpa using hstores.object

/-- The calls of `array_append_value` are for elements of at most four bytes. -/
def ValuesFit (e : UInt64) (labels : List Label) : Prop :=
  ∀ value stack answer, .appendValue value stack answer ∈ labels → e.toNat ≤ 4

theorem source_fits_iff (hallowed : allowed c.state l = true)
    (helement : c.state.elementSize = e) :
    e.toNat ≤ l.source.size ↔ ValuesFit e [l] := by
  cases l with
  | appendPtr source answer =>
      refine iff_of_true ?_ fun value stack answer' hmem => ?_
      · simp only [allowed, Bool.and_eq_true, decide_eq_true_eq] at hallowed
        rw [← helement]
        exact hallowed.2
      · cases List.mem_singleton.mp hmem
  | appendValue value stack answer =>
      constructor
      · intro hle _ _ _ _
        exact hle
      · intro h
        exact h value stack answer (List.mem_singleton_self _)

theorem valuesFit_concat {labels : List Label} :
    ValuesFit e (labels ++ [l]) ↔ ValuesFit e labels ∧ ValuesFit e [l] := by
  constructor
  · intro h
    exact ⟨fun value stack answer hmem => h value stack answer (List.mem_append_left _ hmem),
      fun value stack answer hmem => h value stack answer (List.mem_append_right _ hmem)⟩
  · rintro ⟨h, h'⟩ value stack answer hmem
    exact (List.mem_append.mp hmem).elim (h value stack answer) (h' value stack answer)

theorem exists_block_of_run {mem : Heap Block} {s₀ : State} {labels : List Label}
    (hnew : arrayNew mem e = some s₀)
    (hrun : Run (Guarded Granted (Next step)) (start s₀) labels c) :
    ∃ b, c.state.block c.state.data = some b := by
  refine hrun.invariant (I := fun c => ∃ b, c.state.block c.state.data = some b) ?_
    ⟨_, (shape_start hnew).2.1.block⟩
  rintro c l c' ⟨b, hb⟩ ⟨hgranted, hstep⟩
  exact (performs_of_step hb hgranted hstep).exists_block

/-- After every run: the accesses so far are in bounds exactly if the blocks are large
enough and the values are, and then the array has its shape. -/
theorem shape_of_run {mem : Heap Block} {s₀ : State} {labels : List Label}
    (hnew : arrayNew mem e = some s₀)
    (hrun : Run (Guarded Granted (Next step)) (start s₀) labels c) :
    ((∀ a ∈ c.state.accesses, a.InBounds) ↔
      Stores e labels.length ∧ ValuesFit e labels) ∧
    (Stores e labels.length → ∃ b, Shape e c.state labels.length b) := by
  obtain ⟨he, hshape, haccesses⟩ := shape_start hnew
  induction hrun with
  | nil =>
      refine ⟨?_, fun _ => ⟨_, hshape⟩⟩
      rw [List.length_nil, ← haccesses]
      exact (and_iff_left fun _ _ _ hmem => by cases hmem).symm
  | @snoc c c' labels l hrun hlast ih =>
      obtain ⟨hgranted, hstep⟩ := hlast
      obtain ⟨hiff, hshape⟩ := ih
      rw [List.length_append, List.length_singleton, valuesFit_concat]
      by_cases hstores : Stores e labels.length
      · obtain ⟨b, hshape⟩ := hshape hstores
        have hperforms := performs_of_step hshape.block hgranted hstep
        refine ⟨?_, fun hnext => hshape.next hperforms he hnext⟩
        rw [hperforms.accesses, List.forall_mem_append, hiff,
          hshape.callAccesses_iff hstores he,
          source_fits_iff (allowed_of_step hstep) hshape.elementSize]
        constructor
        · rintro ⟨⟨-, hvalues⟩, hnext, hvalue⟩
          exact ⟨hnext, hvalues, hvalue⟩
        · rintro ⟨hnext, hvalues, hvalue⟩
          exact ⟨⟨hstores, hvalues⟩, hnext, hvalue⟩
      · -- an access outside of its block is not undone
        obtain ⟨b, hb⟩ := exists_block_of_run hnew hrun
        have hperforms := performs_of_step hb hgranted hstep
        refine ⟨iff_of_false (fun hall => ?_) fun hnext => hstores hnext.1.of_succ,
          fun hnext => absurd hnext.of_succ hstores⟩
        rw [hperforms.accesses, List.forall_mem_append] at hall
        exact hstores (hiff.mp hall.1).1

/-- For every element size that `array_new` accepts and every sequence of calls in
which each `realloc` succeeds: all bytes are written in the blocks that were requested,
and `array_append_value` reads no more than its argument, exactly if the requests for
so many elements are large enough and `array_append_value` is called for elements of
at most four bytes only. -/
theorem array_inBounds_iff (mem : Heap Block) (e : UInt64) (s₀ : State)
    (hnew : arrayNew mem e = some s₀) (labels : List Label) (c : Client)
    (hrun : Run (Guarded Granted (Next step)) (start s₀) labels c) :
    (∀ a ∈ c.state.accesses, a.InBounds) ↔
      Stores e labels.length ∧ ValuesFit e labels :=
  (shape_of_run hnew hrun).1

def seventeen : List Label :=
  List.replicate 16 (.appendPtr ⟨4, fun _ => 9⟩ none) ++
    [.appendValue 7 (fun _ => 0) (some ⟨4096, fun _ => 1⟩)]

theorem array_inBounds_iff_seventeen :
    ∃ (s₀ : State) (c : Client), arrayNew (fun _ => none) 4 = some s₀ ∧
      Run (Guarded Granted (Next step)) (start s₀) seventeen c ∧
      c.state.accesses.length = 36 ∧ ∀ a ∈ c.state.accesses, a.InBounds := by
  obtain ⟨s₀, hnew⟩ : ∃ s₀, arrayNew (fun _ => none) 4 = some s₀ := ⟨_, rfl⟩
  have hend : ((arrayNew (fun _ => none) 4).bind fun s₀ =>
      (exec (fun c l => decide (Granted c l)) step (start s₀) seventeen).filter fun c =>
        decide (c.state.accesses.length = 36)).isSome = true := by
    decide +kernel
  rw [hnew] at hend
  obtain ⟨c, hc⟩ := Option.isSome_iff_exists.mp hend
  obtain ⟨hc, hend⟩ := Option.filter_eq_some_iff.mp hc
  have hrun := Run.of_exec hc
  refine ⟨s₀, c, hnew, hrun, of_decide_eq_true hend, ?_⟩
  refine (array_inBounds_iff _ 4 s₀ hnew seventeen c hrun).mpr ⟨⟨?_, ?_⟩, ?_⟩
  · decide
  · decide
  · intro _ _ _ _
    decide

/-- `array_append_value` reads eight bytes of its argument for an element of eight
bytes, and `array_new(2 ^ 60)` requests 32 bytes, so that the first element is written
outside. -/
theorem array_outOfBounds :
    (∃ s₀ c, arrayNew (fun _ => none) 8 = some s₀ ∧
      Run (Guarded Granted (Next step)) (start s₀) [.appendValue 7 (fun _ => 0) none] c ∧
      ¬ ∀ a ∈ c.state.accesses, a.InBounds) ∧
    ∃ s₀ c, arrayNew (fun _ => none) (2 ^ 60) = some s₀ ∧ s₀.object.size = 32 ∧
      Run (Guarded Granted (Next step)) (start s₀)
        [.appendPtr ⟨2 ^ 60, fun _ => 0⟩ none] c ∧
      ¬ ∀ a ∈ c.state.accesses, a.InBounds := by
  constructor
  · obtain ⟨s₀, hnew⟩ : ∃ s₀, arrayNew (fun _ => none) 8 = some s₀ := ⟨_, rfl⟩
    have hend : ((arrayNew (fun _ => none) 8).bind fun s₀ =>
        (exec (fun c l => decide (Granted c l)) step (start s₀)
          [.appendValue 7 (fun _ => 0) none]).filter fun c =>
          decide (¬ ∀ a ∈ c.state.accesses, a.InBounds)).isSome = true := by
      decide +kernel
    rw [hnew] at hend
    obtain ⟨c, hc⟩ := Option.isSome_iff_exists.mp hend
    obtain ⟨hc, hend⟩ := Option.filter_eq_some_iff.mp hc
    exact ⟨s₀, c, hnew, Run.of_exec hc, of_decide_eq_true hend⟩
  · obtain ⟨s₀, hnew⟩ : ∃ s₀, arrayNew (fun _ => none) (2 ^ 60) = some s₀ :=
      Option.isSome_iff_exists.mp (by decide +kernel)
    have hend : ((arrayNew (fun _ => none) (2 ^ 60)).bind fun s₀ =>
        (exec (fun c l => decide (Granted c l)) step (start s₀)
          [.appendPtr ⟨2 ^ 60, fun _ => 0⟩ none]).filter fun c =>
          decide (s₀.object.size = 32 ∧
            ¬ ∀ a ∈ c.state.accesses, a.InBounds)).isSome = true := by
      decide +kernel
    rw [hnew] at hend
    obtain ⟨c, hc⟩ := Option.isSome_iff_exists.mp hend
    obtain ⟨hc, hend⟩ := Option.filter_eq_some_iff.mp hc
    obtain ⟨hsize, hout⟩ := of_decide_eq_true hend
    exact ⟨s₀, c, hnew, hsize, Run.of_exec hc, hout⟩

end ArrayT

end Osi
