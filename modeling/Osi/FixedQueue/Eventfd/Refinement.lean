import Osi.FixedQueue.Eventfd.Calls

/-!
# The queue on its eventfds refines the atomic one

The system call that takes the token or posts it is the step of the atomic queue; the
others are invisible.
-/

namespace Osi

namespace EventfdQueue

open Transition SharedQueue

namespace State

variable {T α : Type*} [DecidableEq T]

section Step

variable [DecidableEq α] {s : State T α} {t : T} {side : Side} {op : Semaphore.Op}
  {m : Semaphore.State T}

theorem abs_call {r : Result α} (h : s.Calling) (hpc : s.pc t = .idle r) (op : Op α) :
    s.abs.step (.call t op) = .ok (s.goto t op.entry).abs := by
  have hnone : semCall (s.pc t) = none := by rw [hpc]; rfl
  have hseen : s.abs.pc t = .idle r := (seen_of_none hnone).trans hpc
  have hframe : Frame t s (s.goto t op.entry) :=
    Frame.goto (fun _ _ => ⟨rfl, fun _ => rfl⟩) op.entry
  have hentry : (s.goto t op.entry).seen t = op.entry :=
    (seen_of_idle (s := s.goto t op.entry) (h.idle hnone)).trans (Function.update_self ..)
  simp only [SharedQueue.State.step, hseen]
  simp only [abs, hframe.seen, hentry]
  rfl

/-- A `semaphore_try_wait` takes effect when its outcome is settled. -/
theorem abs_settle {rc : Bool} {n : ℕ} (hcall : semCall (s.pc t) = some (side, .tryWait))
    (hv : ((s.sem side).pc t).settled = false)
    (hm : ∃ flags, m.pc = Function.update (s.sem side).pc t (.tryRestore flags rc))
    (hn : m.counter = n)
    (hcounter : (s.sem side).counter = 0 ∧ rc = false ∧ n = 0 ∨
      (s.sem side).counter ≠ 0 ∧ rc = true ∧ n = (s.sem side).counter - 1) :
    s.abs.step (.run t) = .ok (s.setSem side m).abs := by
  obtain ⟨flags, hpc⟩ := hm
  subst hn
  have hsem : ((s.setSem side m).sem side).pc t = .tryRestore flags rc := by
    simp [setSem, hpc]
  have hbefore : s.abs.pc t = s.pc t := seen_of_unsettled hcall hv
  have hafter : (s.setSem side m).seen t = afterCall rc (s.pc t) := by
    rw [seen_of_settled (s := s.setSem side m) hcall (by rw [hsem]; rfl), hsem]
    rfl
  have hcall' : semCall (s.abs.pc t) = some (side, .tryWait) := by rw [hbefore]; exact hcall
  rw [SharedQueue.State.step, advance_tryWait hcall', counter_abs,
    abs_setSem (.of_setSem hpc) rfl rfl rfl rfl rfl, hafter, hbefore]
  rcases hcounter with ⟨hzero, rfl, hzero'⟩ | ⟨hpos, rfl, hpred⟩
  · rw [if_pos hzero, hzero', ← hzero, ← counter_abs]
    cases side <;> rfl
  · rw [if_neg hpos, hpred]

theorem abs_inner (h : s.Calling) (hroom : (s.sem side).counter < Semaphore.eventfdMax)
    (hpatient : Patient s (.run t)) (hcall : semCall (s.pc t) = some (side, op))
    (hbusy : (s.sem side).pc t ≠ .idle) (hm : (s.sem side).advance t = .ok m)
    (hstay : m.pc t ≠ .idle) :
    (s.setSem side m).abs = s.abs ∨ s.abs.step (.run t) = .ok (s.setSem side m).abs := by
  obtain ⟨v, hv, heffect⟩ := Semaphore.advance_effect (h.op hcall hbusy) hm
    (hpatient side) hroom
  have hmv : m.pc t = v := by rw [hv, Function.update_self]
  cases heffect with
  | inner hn hv₀ hv₁ _ =>
      left
      rw [abs_setSem (.of_setSem hv) rfl rfl rfl rfl rfl]
      refine goto_seen hn ?_
      rw [seen_of_unsettled hcall hv₀]
      refine seen_of_unsettled (s := s.setSem side m) hcall ?_
      simpa [setSem, hmv] using hv₁
  | take hn hn' hop hv₀ hv₁ =>
      obtain ⟨flags, rfl⟩ := hv₁
      subst hop
      exact .inr (abs_settle hcall hv₀ ⟨flags, hv⟩ rfl (.inr ⟨hn, rfl, hn'⟩))
  | fail hn hn' hop hv₀ hv₁ =>
      obtain ⟨flags, rfl⟩ := hv₁
      subst hop
      exact .inr (abs_settle hcall hv₀ ⟨flags, hv⟩ rfl (.inl ⟨hn, rfl, hn'⟩))
  | wait _ _ _ _ hidle => exact absurd (hmv.trans hidle) hstay
  | post _ _ _ hidle => exact absurd (hmv.trans hidle) hstay
  | restore _ _ _ hidle => exact absurd (hmv.trans hidle) hstay

theorem abs_leave (h : s.Calling) (hroom : (s.sem side).counter < Semaphore.eventfdMax)
    (hpatient : Patient s (.run t)) (hcall : semCall (s.pc t) = some (side, op))
    (hbusy : (s.sem side).pc t ≠ .idle) (hm : (s.sem side).advance t = .ok m)
    (hdone : m.pc t = .idle) {s' : State T α}
    (hs' : s' = (s.setSem side m).goto t
      (afterCall (returned ((s.sem side).pc t)) (s.pc t))) :
    s'.abs = s.abs ∨ s.abs.step (.run t) = .ok s'.abs := by
  have hop := h.op hcall hbusy
  obtain ⟨v, hv, heffect⟩ := Semaphore.advance_effect hop hm (hpatient side) hroom
  have hmv : m.pc t = v := by rw [hv, Function.update_self]
  have hpc : s'.pc t = afterCall (returned ((s.sem side).pc t)) (s.pc t) := by
    rw [hs']
    exact Function.update_self ..
  have hafter : s'.seen t = afterCall (returned ((s.sem side).pc t)) (s.pc t) := by
    rw [seen_of_none (by rw [hpc]; exact semCall_afterCall _ _), hpc]
  have habs : s'.abs = (setCounter s.abs m.counter side).goto t (s'.seen t) := by
    subst hs'
    exact abs_setSem ((Frame.of_setSem hv).goto _) rfl rfl rfl rfl rfl
  have hunsettled (hv₀ : ((s.sem side).pc t).settled = false) :
      s.abs.pc t = s.pc t ∧ returned ((s.sem side).pc t) = true := by
    refine ⟨seen_of_unsettled hcall hv₀, ?_⟩
    cases hpc : (s.sem side).pc t with
    | tryRestore flags rc =>
        rw [hpc] at hv₀
        cases hv₀
    | _ => rfl
  cases heffect with
  | wait hn hn' hop hv₀ _ =>
      obtain ⟨hbefore, hrc⟩ := hunsettled hv₀
      subst hop
      right
      have hcall' : semCall (s.abs.pc t) = some (side, .wait) := by rw [hbefore]; exact hcall
      rw [SharedQueue.State.step, advance_wait hcall' (by rw [counter_abs]; exact hn),
        counter_abs, habs, hafter, hbefore, hrc, hn']
  | post hn hop hv₀ _ =>
      obtain ⟨hbefore, hrc⟩ := hunsettled hv₀
      subst hop
      right
      have hcall' : semCall (s.abs.pc t) = some (side, .post) := by rw [hbefore]; exact hcall
      rw [SharedQueue.State.step, advance_post hcall', counter_abs, habs, hafter, hbefore,
        hrc, hn]
  | restore hn hop hv₀ _ =>
      left
      rw [habs]
      exact goto_seen hn (hafter.trans (seen_of_settled hcall hv₀).symm)
  | inner _ _ _ hop =>
      rw [← hmv, hdone] at hop
      cases hop
  | take _ _ _ _ hflags =>
      obtain ⟨flags, rfl⟩ := hflags
      cases hmv.symm.trans hdone
  | fail _ _ _ _ hflags =>
      obtain ⟨flags, rfl⟩ := hflags
      cases hmv.symm.trans hdone

theorem abs_afterSection {q : SharedQueue.State T α} (h : s.Calling)
    (hcall : semCall (s.pc t) = none) (hq : s.plain.advance t = .ok q) :
    s.abs.step (.run t) = .ok (s.afterSection q).abs := by
  obtain ⟨list, lock, appended, removed, v, rfl, hany⟩ := advance_section hcall hq
  have hframe : Frame t s (s.afterSection ⟨list, s.plain.enqueueSem, s.plain.dequeueSem,
      lock, Function.update s.plain.pc t v, appended, removed⟩) := .afterSection rfl
  have hafter : (s.afterSection ⟨list, s.plain.enqueueSem, s.plain.dequeueSem,
      lock, Function.update s.plain.pc t v, appended, removed⟩).seen t = v :=
    (seen_of_idle (s := s.afterSection _) (h.idle hcall)).trans (Function.update_self ..)
  refine (hany s.seen (seen_of_none hcall)).trans ?_
  rw [abs, hframe.seen, hafter]
  rfl

/-- Every step is the step of the atomic queue with the same label; inside a call it
may be none. -/
theorem abs_step {s' : State T α} {l : Label T α} (h : s.Calling)
    (hroom : ∀ side, (s.sem side).counter < Semaphore.eventfdMax) (hpatient : Patient s l)
    (hs' : s.step l = .ok s') :
    isCall l = false ∧ s'.abs = s.abs ∨ s.abs.step l = .ok s'.abs := by
  cases step_cases hs' with
  | call hpc => exact .inr (abs_call h hpc _)
  | enter hcall hidle => exact .inl ⟨rfl, abs_enter hcall hidle⟩
  | inner hcall hbusy hm hstay =>
      exact (abs_inner h (hroom _) hpatient hcall hbusy hm hstay).imp_left (⟨rfl, ·⟩)
  | leave hcall hbusy hm hdone =>
      exact (abs_leave h (hroom _) hpatient hcall hbusy hm hdone rfl).imp_left (⟨rfl, ·⟩)
  | inList hcall hq => exact .inr (abs_afterSection h hcall hq)

end Step

/-! ## Refinement -/

section Refinement

variable [DecidableEq α] [Fintype T] {s s' : State T α} {l : Label T α} {slots : ℕ}

theorem stutters (hslots : slots < 2 ^ 32) :
    Stutters (fun s : State T α => s.Calling ∧ Invariant slots s.abs) abs isCall
      (Guarded Patient (Next step)) (Next SharedQueue.State.step) := by
  rintro s l s' ⟨hcalling, hinv⟩ ⟨hpatient, hs'⟩
  have habs := abs_step hcalling (counter_lt hinv hslots) hpatient hs'
  refine ⟨⟨hcalling.step hs', ?_⟩, habs⟩
  rcases habs with ⟨-, hsame⟩ | hstep
  · rw [hsame]
    exact hinv
  · exact hinv.step hstep

theorem no_assertion (h : Invariant slots s.abs) (t : T) :
    s.step (.run t) ≠ .error .assertion := by
  intro herror
  simp only [step, advance] at herror
  split at herror
  · split at herror
    · exact onSemaphore_ne_assertion herror
    · split at herror
      · split_ifs at herror
      · rename_i herror'
        cases herror
        exact onSemaphore_ne_assertion herror'
  · rename_i hcall
    have hseen : s.abs.pc t = s.pc t := seen_of_none hcall
    split at herror
    · cases herror
    · rename_i herror'
      cases herror
      rcases advance_assertion herror' with ⟨hpc, hnil⟩ | ⟨x, hpc, hx⟩
      · exact h.list_ne_nil (hseen.trans hpc) hnil
      · have hfound := h.found t x (by rw [hseen, show s.pc t = _ from hpc]; rfl)
        rw [show s.abs.list = s.plain.list from rfl, ← listContains_iff, hx] at hfound
        cases hfound

theorem run_abs {capacity : UInt64} {ls : List (Label T α)}
    (h : Run (Guarded Patient (Next step)) (init capacity) ls s) :
    Invariant (semaphoreNew capacity.toUInt32) s.abs ∧
      ∃ ls', ls'.Sublist ls ∧ ls'.filter isCall = ls.filter isCall ∧
        Run (Next SharedQueue.State.step) (SharedQueue.State.init capacity) ls' s.abs := by
  have hslots : semaphoreNew capacity.toUInt32 < 2 ^ 32 := UInt32.toNat_lt _
  obtain ⟨⟨-, hinv⟩, hrun⟩ := (stutters hslots).run h
    ⟨calling_init capacity, Invariant.init capacity⟩
  exact ⟨hinv, hrun⟩

end Refinement

end State

/-- In every run in which a `semaphore_wait` that finds no token sleeps, the queue on
its eventfds refines the queue with atomic semaphores: the run is one of the atomic
queue, with the same calls in the same order and without some of the steps inside
them. So no `assert` fails, and the list is never longer than the capacity. -/
theorem eventfd_queue_refines {T α : Type*} [Fintype T] [DecidableEq T] [DecidableEq α]
    (capacity : UInt64) (s : State T α) (ls : List (Label T α))
    (h : Run (Guarded State.Patient (Next State.step)) (State.init capacity) ls s) :
    (∃ ls', ls'.Sublist ls ∧ ls'.filter isCall = ls.filter isCall ∧
      Run (Next SharedQueue.State.step) (SharedQueue.State.init capacity) ls' s.abs) ∧
    s.list.length ≤ semaphoreNew capacity.toUInt32 ∧
    ∀ t, s.step (.run t) ≠ .error .assertion := by
  obtain ⟨hinv, hrun⟩ := State.run_abs h
  refine ⟨hrun, ?_, State.no_assertion hinv⟩
  have hslots := hinv.slots_eq
  have hlist : s.abs.list.length = s.list.length := rfl
  omega

def sleepThenServe : List (Label Bool ℕ) :=
  [.call true .dequeue, .run true, .run true, .call false (.tryEnqueue 8), .run false,
    .run false, .run false, .run false, .run false, .run false, .run false, .run false,
    .run false, .run false, .run true, .run true, .run true, .run true]

theorem eventfd_queue_refines_sleepThenServe :
    ∃ s : State Bool ℕ, s.pc true = .dequeuePost 8 ∧ s.list.length ≤ 2 ∧
      ∀ t, s.step (.run t) ≠ .error .assertion := by
  have hend : ((exec (fun s l => decide (State.Patient s l)) State.step (State.init 2)
      sleepThenServe).any fun s => decide (s.pc true = .dequeuePost 8)) = true := by
    decide +kernel
  obtain ⟨s, hs, hend⟩ := (Option.any_eq_true _ _).mp hend
  obtain ⟨-, hlength, hassert⟩ := eventfd_queue_refines 2 s sleepThenServe (Run.of_exec hs)
  exact ⟨s, of_decide_eq_true hend, hlength, hassert⟩

end EventfdQueue

end Osi
