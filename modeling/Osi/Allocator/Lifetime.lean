import Osi.Allocator.Contents

/-!
# From `osi_malloc` to `osi_free`

The tracker may be switched on and off while blocks are in use. A block that was handed
out without the tracker can be freed while the tracker is off, and at no other time. A
block that was handed out with canaries can be freed until the tracker is reset or
switched off, and never again after that, not even when the tracker is switched on
again.

Nothing of this touches the bytes that were requested: they are what the client has
written there.
-/

namespace Osi

namespace Allocator

open Memory Transition

variable {s s' : State} {b : Block} {start record : Addr} {size : UInt64} {l : Label}
  {ls : List Label}

/-! ## One step -/

def answer (s : State) : Label → Option Addr
  | .malloc size start record => (s.osiMalloc size start record).toOption.map Prod.snd
  | .calloc size start record => (s.osiCalloc size start record).toOption.map Prod.snd
  | .strdup str start record => (s.osiStrdup str start record).toOption.map Prod.snd
  | .strndup str len start record =>
      (s.osiStrndup str len start record).toOption.map Prod.snd
  | _ => none

def contents : Label → List UInt8
  | .calloc size _ _ => List.replicate size.toNat 0
  | .strdup str _ _ => str ++ [0]
  | .strndup str len _ _ => str.take len.toNat ++ [0]
  | _ => []

inductive Effect (s s' : State) : Label → Prop
  | tracker {l : Label} (hl : l = .init ∨ l = .reset ∨ l = .uninit)
      (invariant : Invariant s') (blocks : s'.blocks = s.blocks) (bytes : s'.bytes = s.bytes) :
      Effect s s' l
  | handsOut {l : Label} {b : Block} (h : HandsOut s s' b) (answer : answer s l = some b.ptr)
      (tracked : b.tracked = if s.tracker.allocations.isSome then some s.epoch else none)
      (length : (contents l).length ≤ b.size.toNat)
      (holds : Holds s'.bytes b.ptr (contents l)) : Effect s s' l
  | frees {b : Block} (hb : b ∈ s.blocks) (invariant : Invariant s')
      (blocks : s'.blocks = s.blocks.filter fun b' => b'.start ≠ b.start)
      (bytes : s'.bytes = s.bytes) : Effect s s' (.free b.ptr)
  | freesNull (same : s' = s) : Effect s s' (.free 0)
  | writes {a : Addr} {byte : UInt8} (invariant : Invariant s') (blocks : s'.blocks = s.blocks)
      (bytes : s'.bytes = Function.update s.bytes a byte) : Effect s s' (.write a byte)

theorem exists_of_map {r : Except Fault (State × Addr)} (h : r.map Prod.fst = .ok s') :
    ∃ ptr, r = .ok (s', ptr) := by
  cases r with
  | error e => cases h
  | ok r =>
      cases h
      exact ⟨r.2, rfl⟩

theorem ok_of_toOption {r : Except Fault State} (h : r.toOption = some s) : r = .ok s := by
  cases r with
  | error e => cases h
  | ok s' => exact congrArg Except.ok (Option.some.inj h)

theorem step_effect (hinv : Invariant s) (hproper : Proper s l) (h : step s l = .ok s') :
    Effect s s' l := by
  cases l with
  | init =>
      obtain ⟨hinv', hbytes, hblocks⟩ := hinv.init h
      exact .tracker (.inl rfl) hinv' hblocks hbytes
  | reset =>
      obtain ⟨hinv', hbytes, hblocks⟩ := hinv.reset h
      exact .tracker (.inr (.inl rfl)) hinv' hblocks hbytes
  | uninit =>
      obtain ⟨hinv', hbytes, hblocks⟩ := hinv.uninit h
      exact .tracker (.inr (.inr rfl)) hinv' hblocks hbytes
  | malloc size start record =>
      obtain ⟨ptr, hcall⟩ := exists_of_map h
      obtain ⟨hout, rfl, -⟩ := handsOut_osiMalloc hinv hproper hcall
      refine .handsOut hout (by simp [answer, hcall, Except.toOption]) rfl (Nat.zero_le _) ?_
      intro i c hc
      cases hc
  | calloc size start record =>
      obtain ⟨ptr, hcall⟩ := exists_of_map h
      obtain ⟨hout, rfl, hholds⟩ := handsOut_osiCalloc hinv hproper hcall
      exact .handsOut hout (by simp [answer, hcall, Except.toOption]) rfl
        (Nat.le_of_eq List.length_replicate) hholds
  | strdup str start record =>
      obtain ⟨ptr, hcall⟩ := exists_of_map h
      obtain ⟨hout, rfl, hlength, hholds⟩ := handsOut_osiStrdup hinv hproper hcall
      exact .handsOut hout (by simp [answer, hcall, Except.toOption]) rfl hlength hholds
  | strndup str len start record =>
      obtain ⟨ptr, hcall⟩ := exists_of_map h
      obtain ⟨size, hout, rfl, hlength, hholds⟩ := handsOut_osiStrndup hinv hproper hcall
      exact .handsOut hout (by simp [answer, hcall, Except.toOption]) rfl hlength hholds
  | free ptr =>
      have hfree : s.osiFree ptr = .ok s' := h
      rcases hproper with rfl | ⟨b, hb, rfl⟩
      · rw [Invariant.osiFree_null] at hfree
        cases hfree
        exact .freesNull rfl
      · by_cases hknown : b.Freeable s
        · obtain ⟨s₁, heq, hinv', hbytes, -, hblocks⟩ := hinv.osiFree_freeable hb hknown
          rw [hfree] at heq
          cases heq
          exact .frees hb hinv' hblocks hbytes
        · rw [hinv.osiFree_other hb hknown] at hfree
          cases hfree
  | write a byte =>
      cases h
      refine .writes (hinv.setBytes ?_) rfl rfl
      intro a' hchanged
      obtain rfl : a' = a := by
        by_contra hne
        exact hchanged (Function.update_of_ne hne _ _)
      exact hproper

theorem Effect.invariant (h : Effect s s' l) (hinv : Invariant s) : Invariant s' := by
  cases h with
  | tracker _ hinv' => exact hinv'
  | handsOut hout => exact hout.invariant
  | frees _ hinv' => exact hinv'
  | freesNull hsame => exact hsame ▸ hinv
  | writes hinv' => exact hinv'

theorem invariant_of_reachable {bytes : Addr → UInt8}
    (h : Reachable (Guarded Proper (Next step)) (Allocator.start bytes) s) : Invariant s := by
  refine h.invariant ?_ (invariant_start bytes)
  intro s l s' hinv hstep
  exact (step_effect hinv hstep.1 hstep.2).invariant hinv

/-! ## Epochs of a run -/

theorem osiMalloc_epoch {r : State × Addr} (h : s.osiMalloc size start record = .ok r) :
    r.1.epoch = s.epoch := by
  rw [State.osiMalloc] at h
  split_ifs at h
  split at h <;> cases h
  rfl

theorem step_epoch (h : step s l = .ok s') (hinit : l ≠ .init) (hreset : l ≠ .reset)
    (huninit : l ≠ .uninit) : s'.epoch = s.epoch := by
  cases l with
  | init => exact absurd rfl hinit
  | reset => exact absurd rfl hreset
  | uninit => exact absurd rfl huninit
  | malloc size start record =>
      obtain ⟨ptr, hcall⟩ := exists_of_map h
      exact osiMalloc_epoch hcall
  | calloc size start record =>
      obtain ⟨ptr, hcall⟩ := exists_of_map h
      exact osiMalloc_epoch (s := s.setBytes _) hcall
  | strdup str start record =>
      obtain ⟨ptr, hcall⟩ := exists_of_map h
      simp only [State.osiStrdup] at hcall
      split at hcall <;> cases hcall
      rename_i s₁ hmalloc
      exact osiMalloc_epoch hmalloc
  | strndup str len start record =>
      obtain ⟨ptr, hcall⟩ := exists_of_map h
      simp only [State.osiStrndup] at hcall
      split at hcall <;> cases hcall
      rename_i s₁ hmalloc
      exact osiMalloc_epoch hmalloc
  | free ptr =>
      simp only [step, State.osiFree] at h
      split at h
      · cases h
      · split_ifs at h <;> cases h <;> rfl
  | write a byte =>
      cases h
      rfl

theorem endEpoch_epoch {tracker : Option AllocationTracker.Tracker}
    (h : s.endEpoch tracker = .ok s') :
    s'.epoch = if s.tracker.allocations.isSome then s.epoch + 1 else s.epoch := by
  cases tracker with
  | none => cases h
  | some tracker =>
      cases h
      rfl

theorem step_epoch_le (h : step s l = .ok s') : s.epoch ≤ s'.epoch := by
  by_cases hinit : l = .init
  · subst hinit
    cases h
    simp only
    split_ifs <;> omega
  · by_cases hend : l = .reset ∨ l = .uninit
    · have hepoch : s'.epoch = if s.tracker.allocations.isSome then s.epoch + 1 else s.epoch := by
        rcases hend with rfl | rfl <;> exact endEpoch_epoch h
      rw [hepoch]
      split_ifs <;> omega
    · rw [not_or] at hend
      exact Nat.le_of_eq (step_epoch h hinit hend.1 hend.2).symm

/-! ## What a step leaves of a block -/

/-- The label does not free the block. -/
def Keeps (b : Block) (l : Label) : Prop :=
  l ≠ .free b.ptr

instance (b : Block) (l : Label) : Decidable (Keeps b l) :=
  inferInstanceAs (Decidable (_ ≠ _))

def LeavesAlone (b : Block) : Label → Prop
  | .free ptr => ptr ≠ b.ptr
  | .write a _ => ¬ b.requested.Contains a.toNat
  | _ => True

instance (b : Block) (l : Label) : Decidable (LeavesAlone b l) :=
  match l with
  | .free ptr => inferInstanceAs (Decidable (ptr ≠ b.ptr))
  | .write a _ => inferInstanceAs (Decidable (¬ b.requested.Contains a.toNat))
  | .init => isTrue trivial
  | .reset => isTrue trivial
  | .uninit => isTrue trivial
  | .malloc _ _ _ => isTrue trivial
  | .calloc _ _ _ => isTrue trivial
  | .strdup _ _ _ => isTrue trivial
  | .strndup _ _ _ _ => isTrue trivial

theorem LeavesAlone.keeps (h : LeavesAlone b l) : Keeps b l := by
  rintro rfl
  exact h rfl

namespace Effect

theorem keeps (h : Effect s s' l) (hinv : Invariant s) (hb : b ∈ s.blocks)
    (hl : Keeps b l) : b ∈ s'.blocks := by
  cases h with
  | tracker _ _ hblocks => exact hblocks ▸ hb
  | handsOut hout =>
      rw [hout.blocks]
      exact List.mem_cons_of_mem _ hb
  | @frees b' hb' _ hblocks =>
      rw [hblocks]
      refine List.mem_filter.mpr ⟨hb, decide_eq_true fun hstart => hl ?_⟩
      rw [hinv.eq_of_start hb' hb hstart]
  | freesNull hsame => exact hsame ▸ hb
  | writes _ hblocks => exact hblocks ▸ hb

theorem requested (h : Effect s s' l) (hb : b ∈ s.blocks) (hl : LeavesAlone b l) {a : Addr}
    (ha : b.requested.Contains a.toNat) : s'.bytes a = s.bytes a := by
  cases h with
  | tracker _ _ _ hbytes => exact congrFun hbytes a
  | @handsOut _ b' hout =>
      refine hout.frame a ?_
      have hpairwise := hout.invariant.disjoint
      rw [hout.blocks, List.pairwise_cons] at hpairwise
      exact (hpairwise.1 b hb).symm.not_contains (Block.contains_of_requested ha)
  | frees _ _ _ hbytes => exact congrFun hbytes a
  | freesNull hsame => rw [hsame]
  | @writes a' _ _ _ hbytes =>
      rw [hbytes]
      refine Function.update_of_ne ?_ _ _
      rintro rfl
      exact hl ha

end Effect

/-- The block that a step has put into use. -/
theorem Effect.of_blocks (h : Effect s s' l) (hblocks : s'.blocks = b :: s.blocks) :
    HandsOut s s' b ∧ answer s l = some b.ptr ∧
      b.tracked = if s.tracker.allocations.isSome then some s.epoch else none := by
  have hlength : s'.blocks.length = s.blocks.length + 1 := by rw [hblocks, List.length_cons]
  cases h with
  | tracker _ _ hsame =>
      rw [hsame] at hlength
      omega
  | @handsOut _ b' hout hanswer htracked =>
      obtain ⟨rfl, -⟩ := List.cons.inj (hblocks.symm.trans hout.blocks)
      exact ⟨hout, hanswer, htracked⟩
  | @frees b' _ _ hfilter =>
      have hle := List.length_filter_le (fun c : Block => c.start ≠ b'.start) s.blocks
      rw [← hfilter] at hle
      omega
  | freesNull hsame =>
      rw [hsame] at hlength
      omega
  | writes _ hsame =>
      rw [hsame] at hlength
      omega

/-- In which epoch a block is, after a run during which it stays in use. -/
theorem epoch_of_run (hrun : Run (Guarded (fun s l => Proper s l ∧ Keeps b l) (Next step))
    s ls s') (hinv : Invariant s) (hb : b ∈ s.blocks) (htracked : b.tracked = some s.epoch) :
    Invariant s' ∧ b ∈ s'.blocks ∧ s.epoch ≤ s'.epoch ∧
      (s'.epoch = s.epoch ↔ .reset ∉ ls ∧ .uninit ∉ ls) := by
  induction hrun with
  | nil => exact ⟨hinv, hb, Nat.le_refl _, by simp⟩
  | @snoc s₁ s₂ ls l _ hlast ih =>
      obtain ⟨hinv₁, hb₁, hle, hiff⟩ := ih
      obtain ⟨⟨hproper, hkeeps⟩, hnext⟩ := hlast
      have heffect := step_effect hinv₁ hproper hnext
      have hle₂ := step_epoch_le hnext
      refine ⟨heffect.invariant hinv₁, heffect.keeps hinv₁ hb₁ hkeeps, hle.trans hle₂, ?_⟩
      simp only [List.mem_append, List.mem_singleton, not_or]
      by_cases hsame : s₁.epoch = s.epoch
      · -- the block keeps the tracker on
        have hon : s₁.tracker.allocations.isSome = true := by
          rw [Option.isSome_iff_ne_none]
          intro hoff
          exact hinv₁.off hoff b hb₁ (hsame ▸ htracked)
        obtain ⟨hreset, huninit⟩ := hiff.mp hsame
        by_cases hend : l = .reset ∨ l = .uninit
        · have hepoch : s₂.epoch = s₁.epoch + 1 := by
            rcases hend with rfl | rfl <;> rw [endEpoch_epoch hnext, if_pos hon]
          have hnot : ¬ s₂.epoch = s.epoch := by omega
          simp only [hnot, false_iff]
          rcases hend with rfl | rfl <;> simp
        · rw [not_or] at hend
          have hepoch : s₂.epoch = s₁.epoch := by
            by_cases hinit : l = .init
            · subst hinit
              cases hnext
              exact if_pos hon
            · exact step_epoch hnext hinit hend.1 hend.2
          simp only [hepoch, hsame, true_iff]
          exact ⟨⟨hreset, Ne.symm hend.1⟩, huninit, Ne.symm hend.2⟩
      · have hnot : ¬ s₂.epoch = s.epoch := by omega
        simp only [hnot, false_iff]
        intro hmem
        exact hsame (hiff.mpr ⟨hmem.1.1, hmem.2.1⟩)

theorem blocks_of_run (hrun : Run (Guarded (fun s l => Proper s l ∧ Keeps b l) (Next step))
    s ls s') (hinv : Invariant s) (hb : b ∈ s.blocks) : Invariant s' ∧ b ∈ s'.blocks := by
  refine hrun.invariant (I := fun s => Invariant s ∧ b ∈ s.blocks) ?_ ⟨hinv, hb⟩
  rintro s l s' ⟨hinv, hb⟩ ⟨⟨hproper, hkeeps⟩, hnext⟩
  have heffect := step_effect hinv hproper hnext
  exact ⟨heffect.invariant hinv, heffect.keeps hinv hb hkeeps⟩

theorem bytes_of_run
    (hrun : Run (Guarded (fun s l => Proper s l ∧ LeavesAlone b l) (Next step)) s ls s')
    (hinv : Invariant s) (hb : b ∈ s.blocks) :
    (Invariant s' ∧ b ∈ s'.blocks) ∧
      ∀ a : Addr, b.requested.Contains a.toNat → s'.bytes a = s.bytes a := by
  induction hrun with
  | nil => exact ⟨⟨hinv, hb⟩, fun _ _ => rfl⟩
  | @snoc s₁ s₂ ls l _ hlast ih =>
      obtain ⟨⟨hinv₁, hb₁⟩, hbytes⟩ := ih
      obtain ⟨⟨hproper, halone⟩, hnext⟩ := hlast
      have heffect := step_effect hinv₁ hproper hnext
      refine ⟨⟨heffect.invariant hinv₁, heffect.keeps hinv₁ hb₁ halone.keeps⟩, ?_⟩
      intro a ha
      exact (heffect.requested hb₁ halone ha).trans (hbytes a ha)

/-! ## When a block can be freed -/

/-- A block that was handed out in the state `s`, before the run `ls` to the state `s'`. -/
def CanFree (s : State) (ls : List Label) (s' : State) : Prop :=
  if s.tracker.allocations.isSome then .reset ∉ ls ∧ .uninit ∉ ls
  else s'.tracker.allocations.isNone

instance (s : State) (ls : List Label) (s' : State) : Decidable (CanFree s ls s') :=
  inferInstanceAs (Decidable (if s.tracker.allocations.isSome then
    Label.reset ∉ ls ∧ Label.uninit ∉ ls else s'.tracker.allocations.isNone))

/-- Whether a block can be freed depends on what the tracker has been through since it
was handed out. -/
theorem allocator_free_iff {bytes : Addr → UInt8} {s₁ : State}
    (hreach : Reachable (Guarded Proper (Next step)) (Allocator.start bytes) s)
    (hproper : Proper s l) (hnext : step s l = .ok s₁) (hb : s₁.blocks = b :: s.blocks)
    (hrun : Run (Guarded (fun s l => Proper s l ∧ Keeps b l) (Next step)) s₁ ls s') :
    (CanFree s ls s' → ∃ s'', step s' (.free b.ptr) = .ok s'' ∧
      s''.blocks = s'.blocks.filter (fun b' => b' ≠ b) ∧ s''.bytes = s'.bytes) ∧
    (¬ CanFree s ls s' → step s' (.free b.ptr) =
      .error (if s'.tracker.allocations = none then .invalidFree else .assertion)) := by
  have hinv := invariant_of_reachable hreach
  have heffect := step_effect hinv hproper hnext
  obtain ⟨hout, hanswer, htracked⟩ := heffect.of_blocks hb
  have hmem : b ∈ s₁.blocks := by
    rw [hb]
    exact List.mem_cons_self
  obtain ⟨hinv', hmem'⟩ := blocks_of_run hrun hout.invariant hmem
  have hiff : CanFree s ls s' ↔ b.Freeable s' := by
    by_cases hon : s.tracker.allocations.isSome
    · rw [CanFree, if_pos hon]
      rw [if_pos hon] at htracked
      have hepoch : s₁.epoch = s.epoch := by
        refine step_epoch hnext ?_ ?_ ?_ <;> rintro rfl <;> cases hanswer
      obtain ⟨-, -, -, hsame⟩ := epoch_of_run hrun hout.invariant hmem (hepoch ▸ htracked)
      rw [← hsame, Block.Freeable, htracked, hepoch]
      simp [eq_comm]
    · rw [CanFree, if_neg hon, Block.Freeable, htracked, if_neg hon]
      simp
  constructor
  · intro hcan
    obtain ⟨s'', hfree, -, hbytes, -, hblocks⟩ := hinv'.osiFree_freeable hmem' (hiff.mp hcan)
    refine ⟨s'', hfree, hblocks.trans (List.filter_congr ?_), hbytes⟩
    intro b' hb'
    refine decide_eq_decide.mpr (not_congr ⟨fun hstart => ?_, fun heq => heq ▸ rfl⟩)
    exact (hinv'.eq_of_start hmem' hb' hstart).symm
  · intro hcannot
    exact hinv'.osiFree_other hmem' fun hfreeable => hcannot (hiff.mpr hfreeable)

/-- A block with canaries, and one that was there before the tracker; then the tracker is
reset. -/
theorem allocator_free_iff_afterReset :
    ∃ s s₁ s', Reachable (Guarded Proper (Next step)) (Allocator.start fun _ => 0) s ∧
      step s (.malloc 3 4096 64) = .ok s₁ ∧
      Run (Guarded (fun s l => Proper s l ∧ Keeps ⟨4096, 3, some 1⟩ l) (Next step)) s₁
        [.malloc 5 8192 72, .reset, .free 0] s' ∧
      step s' (.free 4104) = .error .assertion := by
  have hexec : ((exec (fun s l => decide (Proper s l)) step (Allocator.start fun _ => 0)
        [.malloc 2 1024 32, .init]).any fun s =>
      (step s (.malloc 3 4096 64)).toOption.any fun s₁ =>
        decide (Proper s (.malloc 3 4096 64) ∧ s₁.blocks = ⟨4096, 3, some 1⟩ :: s.blocks) &&
          (exec (fun s l => decide (Proper s l ∧ Keeps ⟨4096, 3, some 1⟩ l)) step s₁
            [.malloc 5 8192 72, .reset, .free 0]).any fun s' =>
              decide (¬ CanFree s [.malloc 5 8192 72, .reset, .free 0] s' ∧
                s'.tracker.allocations.isSome)) = true := by
    decide +kernel
  obtain ⟨s, hreach, hrest⟩ := (Option.any_eq_true _ _).mp hexec
  obtain ⟨s₁, hnext, hrest⟩ := (Option.any_eq_true _ _).mp hrest
  obtain ⟨hfirst, hrest⟩ := Bool.and_eq_true_iff.mp hrest
  obtain ⟨s', hrun, hlast⟩ := (Option.any_eq_true _ _).mp hrest
  obtain ⟨hproper, hblocks⟩ := of_decide_eq_true hfirst
  obtain ⟨hcannot, hon⟩ := of_decide_eq_true hlast
  have hnext' := ok_of_toOption hnext
  have hafter := allocator_free_iff (Reachable.of_exec hreach) hproper hnext' hblocks
    (Run.of_exec hrun)
  refine ⟨s, s₁, s', Reachable.of_exec hreach, hnext', Run.of_exec hrun, ?_⟩
  exact (hafter.2 hcannot).trans (by rw [if_neg (Option.isSome_iff_ne_none.mp hon)])

/-! ## What a client reads -/

/-- What `osi_calloc`, `osi_strdup` or `osi_strndup` has put at a pointer is there until
the client writes to it or frees it. -/
theorem allocator_contents {bytes : Addr → UInt8} {s₁ : State} {ptr : Addr}
    (hreach : Reachable (Guarded Proper (Next step)) (Allocator.start bytes) s)
    (hproper : Proper s l) (hnext : step s l = .ok s₁) (hanswer : answer s l = some ptr) :
    ∃ b : Block, b.ptr = ptr ∧ s₁.blocks = b :: s.blocks ∧
      ∀ ls s', Run (Guarded (fun s l => Proper s l ∧ LeavesAlone b l) (Next step)) s₁ ls s' →
        b ∈ s'.blocks ∧ Holds s'.bytes ptr (contents l) := by
  have hinv := invariant_of_reachable hreach
  cases step_effect hinv hproper hnext with
  | tracker hl =>
      rcases hl with rfl | rfl | rfl <;> cases hanswer
  | @handsOut _ b hout hreturned _ hlength hholds =>
      obtain rfl : b.ptr = ptr := Option.some.inj (hreturned.symm.trans hanswer)
      have hmem : b ∈ s₁.blocks := by
        rw [hout.blocks]
        exact List.mem_cons_self
      refine ⟨b, rfl, hout.blocks, fun ls s' hrun => ?_⟩
      obtain ⟨⟨hinv', hmem'⟩, hbytes⟩ := bytes_of_run hrun hout.invariant hmem
      refine ⟨hmem', fun i c hc => ?_⟩
      obtain ⟨hi, -⟩ := List.getElem?_eq_some_iff.mp hc
      have hinside := Block.requested_contains (hinv'.bounded b hmem')
        (Nat.lt_of_lt_of_le hi hlength)
      rw [hbytes _ hinside]
      exact hholds i c hc
  | frees => cases hanswer
  | freesNull => cases hanswer
  | writes => cases hanswer

/-- A copy of a string, while the tracker is reset and switched off. -/
theorem allocator_contents_strdup :
    ∃ s s₁ s', Reachable (Guarded Proper (Next step)) (Allocator.start fun _ => 7) s ∧
      step s (.strdup [104, 105] 4096 64) = .ok s₁ ∧
      Run (Guarded (fun s l => Proper s l ∧ LeavesAlone ⟨4096, 3, some 1⟩ l) (Next step)) s₁
        [.calloc 5 8192 72, .reset, .write 8200 9, .uninit, .free 0] s' ∧
      Holds s'.bytes 4104 [104, 105, 0] := by
  have hexec : ((exec (fun s l => decide (Proper s l)) step (Allocator.start fun _ => 7)
        [.init, .malloc 2 1024 32]).any fun s =>
      (step s (.strdup [104, 105] 4096 64)).toOption.any fun s₁ =>
        decide (Proper s (.strdup [104, 105] 4096 64) ∧
            answer s (.strdup [104, 105] 4096 64) = some 4104 ∧
            s₁.blocks = ⟨4096, 3, some 1⟩ :: s.blocks) &&
          (exec (fun s l => decide (Proper s l ∧ LeavesAlone ⟨4096, 3, some 1⟩ l)) step s₁
            [.calloc 5 8192 72, .reset, .write 8200 9, .uninit, .free 0]).isSome) = true := by
    decide +kernel
  obtain ⟨s, hreach, hrest⟩ := (Option.any_eq_true _ _).mp hexec
  obtain ⟨s₁, hnext, hrest⟩ := (Option.any_eq_true _ _).mp hrest
  obtain ⟨hfirst, hrest⟩ := Bool.and_eq_true_iff.mp hrest
  obtain ⟨s', hrun⟩ := Option.isSome_iff_exists.mp hrest
  obtain ⟨hproper, hanswer, hblocks⟩ := of_decide_eq_true hfirst
  have hnext' := ok_of_toOption hnext
  obtain ⟨b, -, hb, hlater⟩ := allocator_contents (Reachable.of_exec hreach) hproper hnext'
    hanswer
  obtain ⟨rfl, -⟩ := List.cons.inj (hblocks.symm.trans hb)
  exact ⟨s, s₁, s', Reachable.of_exec hreach, hnext', Run.of_exec hrun,
    (hlater _ s' (Run.of_exec hrun)).2⟩

end Allocator

end Osi
