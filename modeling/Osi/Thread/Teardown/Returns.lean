import Osi.Thread.Teardown.Alone

/-!
# The end of a thread

A thread that was stopped, and whose clients do nothing, comes to the end of `run_thread`
by its own steps and the returns of the items: the reactor reports the stop, and the last
loop empties the queue. It does not only where an item posts to the full queue of its own
thread, since nobody else takes an item out.
-/

namespace Osi

namespace Thread

open Transition
open SharedQueue (Pc)

variable {T α : Type*} [DecidableEq T] [DecidableEq α] {t t' : State T α} {l : Label T α}
  [Fintype T]

omit [DecidableEq T] [DecidableEq α] [Fintype T] in
theorem not_waiting_of_takes {waits : Bool} (h : takes waits (t.workQueue.pc none) = true) :
    ¬ Waiting t := by
  rintro ⟨⟨x, hpc⟩, -⟩
  rw [hpc] at h
  cases h

/-- The last loop comes to its end, since nobody fills the queue again. -/
theorem drains (h : Deserted t) {count : UInt64} (hphase : t.phase = .draining count) :
    ∃ t', Reachable Alone t t' ∧ t'.phase.hasReturned = true := by
  induction hn : t.workQueue.list.length + (t.workQueue.pc none).taken.length
    using Nat.strong_induction_on generalizing t count with
  | _ n ih =>
      have htakes := h.ready.draining count hphase
      have hdequeues : (t.workQueue.pc none).dequeues = true := by
        have hworker := h.invariant.worker
        rw [hphase] at hworker
        exact hworker
      obtain ⟨t₁, hreach, hphase₁, hidle, hlength⟩ :=
        call_completes h (by rw [hphase]; rfl) (not_waiting_of_takes htakes)
      have h₁ := h.reachable hreach
      rw [hphase] at hphase₁
      have htakes₁ := h₁.ready.draining count hphase₁
      have hlength₁ := hlength hdequeues
      rcases given_of_takes hidle htakes₁ with ⟨-, hpc⟩ | ⟨item, hpc⟩
      · refine ⟨{ t₁ with phase := .returned none },
          hreach.trans (reachable_of_step (l := .run) rfl ?_), rfl⟩
        simp [State.step, State.advance, hphase₁, hpc]
      · by_cases hcount : count ≤ t₁.capacity
        · have hexecute : t₁.step .run =
              .ok { t₁ with phase := .executing item (.drain count) } := by
            simp [State.step, State.advance, hphase₁, hpc, hcount]
          have hreturn : ({ t₁ with phase := .executing item (.drain count) } :
              State T α).step .itemReturns = .ok { t₁ with
                workQueue := t₁.workQueue.goto none .dequeueTryWait
                phase := .draining (count + 1)
                finished := t₁.finished ++ [item]
                drained := t₁.drained + 1 } := by
            simp [State.step, State.call, SharedQueue.State.step, hpc, Except.map,
              SharedQueue.Op.entry]
          have hreach₂ := hreach.trans ((reachable_of_step rfl hexecute).trans
            (reachable_of_step rfl hreturn))
          have htaken : (Pc.idle (.data (some item)) : Pc α).taken.length = 1 := rfl
          rw [hpc, htaken] at hlength₁
          obtain ⟨t', hreach', hend⟩ := ih t₁.workQueue.list.length (by omega)
            (h.reachable hreach₂) rfl (by simp [SharedQueue.State.goto, Pc.taken])
          exact ⟨t', hreach₂.trans hreach', hend⟩
        · refine ⟨{ t₁ with phase := .returned (some item) },
            hreach.trans (reachable_of_step (l := .run) rfl ?_), rfl⟩
          simp [State.step, State.advance, hphase₁, hpc, hcount]

theorem callback_returns (h : Deserted t) {events : List Event}
    (hphase : t.phase = .dequeuing events) :
    ∃ t', Reachable Alone t t' ∧ t'.phase = .reactor events := by
  have htakes := (h.ready.dequeuing events hphase).1
  obtain ⟨t₁, hreach, hphase₁, hidle, -⟩ :=
    call_completes h (by rw [hphase]; rfl) (not_waiting_of_takes htakes)
  rw [hphase] at hphase₁
  have htakes₁ := ((h.reachable hreach).ready.dequeuing events hphase₁).1
  obtain ⟨item, hpc⟩ : ∃ item, t₁.workQueue.pc none = .idle (.data (some item)) := by
    rcases given_of_takes hidle htakes₁ with ⟨hnot, -⟩ | hsome
    · cases hnot
    · exact hsome
  have hexecute : t₁.step .run =
      .ok { t₁ with phase := .executing item (.callback events) } := by
    simp [State.step, State.advance, hphase₁, hpc]
  have hreturn : ({ t₁ with phase := .executing item (.callback events) } :
      State T α).step .itemReturns = .ok { t₁ with
        phase := .reactor events
        finished := t₁.finished ++ [item] } := rfl
  exact ⟨_, hreach.trans ((reachable_of_step rfl hexecute).trans
    (reachable_of_step rfl hreturn)), rfl⟩

/-- After the report of the stop only the last loop is left. -/
theorem stop_returns (h : Deserted t) {events : List Event}
    (hphase : t.phase = .reactor (.stop :: events)) :
    ∃ t', Reachable Alone t t' ∧ t'.phase.hasReturned = true := by
  have hworker := h.invariant.worker
  rw [hphase] at hworker
  have hstep : t.step .run = .ok { t with
      workQueue := t.workQueue.goto none .dequeueTryWait
      phase := .draining 0
      atReturn := some (t.finished, t.workQueue.list.map SharedQueue.Node.data) } := by
    simp only [State.step, State.advance, hphase]
    exact Lifetime.call_eq_ok (t := { t with
      phase := .reactor (.stop :: events)
      atReturn := some (t.finished, t.workQueue.list.map SharedQueue.Node.data) }) hworker
      .tryDequeue (.draining 0)
  have hreach := reachable_of_step rfl hstep
  obtain ⟨t', hreach', hend⟩ := drains (h.reachable hreach) rfl
  exact ⟨t', hreach.trans hreach', hend⟩

theorem reactor_returns (h : Deserted t) {events : List Event}
    (hphase : t.phase = .reactor events) :
    ∃ t', Reachable Alone t t' ∧ t'.phase.hasReturned = true := by
  induction events generalizing t with
  | nil =>
      have hstep : t.step (.wait [.stop]) = .ok { t with phase := .reactor [.stop] } := by
        simp [State.step, hphase, State.ready, h.stopped]
      have hreach := reachable_of_step rfl hstep
      obtain ⟨t', hreach', hend⟩ := stop_returns (h.reachable hreach) rfl
      exact ⟨t', hreach.trans hreach', hend⟩
  | cons event events ih =>
      cases event with
      | stop => exact stop_returns h hphase
      | workQueue =>
          have hworker := h.invariant.worker
          rw [hphase] at hworker
          have hstep : t.step .run = .ok { t with
              workQueue := t.workQueue.goto none .dequeueWait, phase := .dequeuing events } := by
            simp only [State.step, State.advance, hphase]
            exact Lifetime.call_eq_ok hworker .dequeue (.dequeuing events)
          have hreach := reachable_of_step rfl hstep
          obtain ⟨t₁, hreach₁, hphase₁⟩ := callback_returns (h.reachable hreach) rfl
          have hreach₂ := hreach.trans hreach₁
          obtain ⟨t', hreach', hend⟩ := ih (h.reachable hreach₂) hphase₁
          exact ⟨t', hreach₂.trans hreach', hend⟩

theorem item_returns (h : Deserted t) {item : α} {caller : Caller}
    (hphase : t.phase = .executing item caller) :
    ∃ t', Reachable Alone t t' ∧ t'.phase.hasReturned = true := by
  have hworker := h.invariant.worker
  rw [hphase] at hworker
  cases caller with
  | callback events =>
      have hstep : t.step .itemReturns = .ok { t with
          phase := .reactor events, finished := t.finished ++ [item] } := by
        simp [State.step, hphase]
      have hreach := reachable_of_step rfl hstep
      obtain ⟨t', hreach', hend⟩ := reactor_returns (h.reachable hreach) rfl
      exact ⟨t', hreach.trans hreach', hend⟩
  | drain count =>
      have hstep : t.step .itemReturns = .ok { t with
          workQueue := t.workQueue.goto none .dequeueTryWait
          phase := .draining (count + 1)
          finished := t.finished ++ [item]
          drained := t.drained + 1 } := by
        simp only [State.step, hphase]
        exact Lifetime.call_eq_ok (t := { t with
          finished := t.finished ++ [item], drained := t.drained + 1 }) hworker .tryDequeue _
      have hreach := reachable_of_step rfl hstep
      obtain ⟨t', hreach', hend⟩ := drains (h.reachable hreach) rfl
      exact ⟨t', hreach.trans hreach', hend⟩

/-- `run_thread` comes to its return by the steps of the thread alone, unless the item that
it executes waits for a slot in its own queue. -/
theorem run_thread_returns (h : Deserted t) (hfree : ¬ Waiting t) :
    ∃ t', Reachable Alone t t' ∧ t'.phase.hasReturned = true := by
  cases hphase : t.phase with
  | reactor events => exact reactor_returns h hphase
  | dequeuing events =>
      obtain ⟨t₁, hreach, hphase₁⟩ := callback_returns h hphase
      obtain ⟨t', hreach', hend⟩ := reactor_returns (h.reachable hreach) hphase₁
      exact ⟨t', hreach.trans hreach', hend⟩
  | executing item caller => exact item_returns h hphase
  | posting item caller =>
      obtain ⟨t₁, hreach, hphase₁, hidle, -⟩ := call_completes h (by rw [hphase]; rfl) hfree
      rw [hphase] at hphase₁
      have hstep : t₁.step .run = .ok { t₁ with phase := .executing item caller } := by
        cases hpc : t₁.workQueue.pc none with
        | idle r => simp [State.step, State.advance, hphase₁, hpc]
        | _ =>
            rw [hpc] at hidle
            cases hidle
      have hreach₁ := hreach.trans (reachable_of_step rfl hstep)
      obtain ⟨t', hreach', hend⟩ := item_returns (h.reachable hreach₁) rfl
      exact ⟨t', hreach₁.trans hreach', hend⟩
  | draining count => exact drains h hphase
  | returned item => exact ⟨t, .refl t, by rw [hphase]; rfl⟩

omit [Fintype T] in
/-- The item waits for ever: nobody takes anything out of the queue. -/
theorem waiting_step (hidle : ∀ u, (t.workQueue.pc (some u)).isIdle = true)
    (hphase : ∃ item caller, t.phase = .posting item caller) (hwaiting : Waiting t)
    (hpost : ∀ u item, l ≠ .post u item) (h : t.step l = .ok t') :
    t'.workQueue = t.workQueue := by
  obtain ⟨item, caller, hphase⟩ := hphase
  obtain ⟨⟨x, hpc⟩, hzero⟩ := hwaiting
  cases l with
  | post u item => exact absurd rfl (hpost u item)
  | client u =>
      have hidle := hidle u
      obtain ⟨q, hq, -⟩ := map_eq_ok h
      cases hv : t.workQueue.pc (some u) with
      | idle r => simp [SharedQueue.State.step, SharedQueue.State.advance, hv] at hq
      | _ =>
          rw [hv] at hidle
          cases hidle
  | stop u =>
      simp only [State.step] at h
      split at h
      · cases h
        rfl
      · cases h
  | run =>
      simp [State.step, State.advance, hphase, hpc, State.continueCall, SharedQueue.State.step,
        SharedQueue.State.advance, hzero, Except.map] at h
  | _ => simp [State.step, hphase] at h

omit [DecidableEq T] [DecidableEq α] in
theorem posting_of_waiting (hinv : Invariant t) (hwaiting : Waiting t) :
    ∃ item caller, t.phase = .posting item caller := by
  obtain ⟨⟨x, hpc⟩, -⟩ := hwaiting
  have hworker := hinv.worker
  rw [hpc] at hworker
  cases hphase : t.phase with
  | posting item caller => exact ⟨item, caller, rfl⟩
  | _ =>
      rw [hphase] at hworker
      cases hworker

end Thread

end Osi
