import Osi.EagerReader.Lifetime.Buffers

/-!
# The return of `eager_reader_free`

The callback that holds the lock of the object returns, unless it waits for a slot in the
full queue, which nobody empties any more.
-/

namespace Osi

namespace EagerReader

namespace Lifetime

open Transition

variable {s s' : State} {l : Label}

def Wedged (s : State) : Prop :=
  ∃ b, s.reader.producer = .enqueueing b ∧
    s.reader.buffers.slots ≤ s.reader.buffers.list.length

/-- Nobody takes a buffer out of the queue after the call. -/
theorem wedged_step (hinv : Invariant s) (hphase : s.phase ≠ .opened) (hwedged : Wedged s)
    (h : Effect s l s') : s'.phase ≠ .opened ∧ Wedged s' := by
  obtain ⟨b, hproducer, hfull⟩ := hwedged
  have hcallback : s.callback = .entered := hinv.producer (by simp [hproducer])
  have hrank : s.phase.rank ≤ 3 := hinv.rank_le (by simp [hcallback])
  have hlate : ∀ p, s.phase = p → 4 ≤ p.rank → False := by
    rintro _ rfl hp
    omega
  cases h with
  | enter houtside => rw [hcallback] at houtside; cases houtside
  | finish _ hwaiting => rw [hproducer] at hwaiting; cases hwaiting
  | read _ hwaiting => rw [hproducer] at hwaiting; cases hwaiting
  | enqueue _ henqueueing hq =>
      obtain ⟨hroom, -⟩ := (FixedQueue.enqueue_eq_some_iff _ _ _).mp hq
      omega
  | count _ hcounting => rw [hproducer] at hcounting; cases hcounting
  | consume hopened => exact absurd hopened hphase
  | leave hfinished => rw [hcallback] at hfinished; cases hfinished
  | exit _ houtside => rw [hcallback] at houtside; cases houtside
  | free hopened => exact absurd hopened hphase
  | @unregister phase hnext =>
      refine ⟨?_, b, hproducer, hfull⟩
      obtain ⟨-, rfl⟩ | ⟨-, rfl⟩ := hnext <;> simp
  | lockObject _ houtside => rw [hcallback] at houtside; cases houtside
  | closeFd hp => exact (hlate _ hp (by decide)).elim
  | freeCurrent hp => exact (hlate _ hp (by decide)).elim
  | freeBuffers hp => exact (hlate _ hp (by decide)).elim
  | stop hp => exact (hlate _ hp (by decide)).elim
  | join hp => exact (hlate _ hp (by decide)).elim
  | freeReader hp => exact (hlate _ hp (by decide)).elim

theorem wedged_of_reachable (hinv : Invariant s) (hphase : s.phase ≠ .opened)
    (hwedged : Wedged s) (h : Reachable (Next State.step) s s') :
    Invariant s' ∧ s'.phase ≠ .opened ∧ Wedged s' := by
  refine h.invariant (I := fun s => Invariant s ∧ s.phase ≠ .opened ∧ Wedged s) ?_
    ⟨hinv, hphase, hwedged⟩
  rintro s l s' ⟨hinv, hphase, hwedged⟩ hnext
  have heffect := effect_of_step hnext
  exact ⟨hinv.step heffect, wedged_step hinv hphase hwedged heffect⟩

theorem reachable_of_step (h : s.step l = .ok s') : Reachable (Next State.step) s s' :=
  (Reachable.refl s).snoc h

/-- The callback has ended: the inbound thread gives the lock back. -/
theorem leave_ends (hfinished : s.callback = .finished) (hrank : s.phase.rank ≤ 3) :
    Reachable (Next State.step) s { s with callback := .outside } := by
  refine reachable_of_step (l := .leave) ?_
  have hpast : s.phase.isPast .lockObject = false := decide_eq_false (Nat.not_lt.mpr hrank)
  simp [State.step, hfinished, hpast]

/-- A buffer is in the queue: the inbound thread counts its bytes and gives the lock
back. -/
theorem count_ends {n : ℕ} (hentered : s.callback = .entered) (hrank : s.phase.rank ≤ 3)
    (hcounting : s.reader.producer = .counting n) :
    Reachable (Next State.step) s { s with
      reader := { s.reader with
        bytesAvailable := s.reader.bytesAvailable + n, producer := .waiting }
      callback := .outside } := by
  have hpast : s.phase.isPast .closeFd = false :=
    decide_eq_false (Nat.not_lt.mpr (Nat.le_succ_of_le hrank))
  have hstep : s.step (.reader .count) = .ok { s with
      reader := { s.reader with
        bytesAvailable := s.reader.bytesAvailable + n, producer := .waiting }
      callback := .finished } := by
    simp [State.step, State.inbound, hentered, hpast, EagerReader.step, hcounting]
  exact (reachable_of_step hstep).trans (leave_ends rfl hrank)

theorem callback_ends (hinv : Invariant s) (hfree : ¬ Wedged s) :
    ∃ s', Reachable (Next State.step) s s' ∧ s'.callback = .outside ∧ s'.phase = s.phase := by
  cases hcallback : s.callback with
  | outside => exact ⟨s, .refl s, hcallback, rfl⟩
  | finished =>
      have hrank : s.phase.rank ≤ 3 := hinv.rank_le (by simp [hcallback])
      exact ⟨_, leave_ends hcallback hrank, rfl, rfl⟩
  | entered =>
      have hrank : s.phase.rank ≤ 3 := hinv.rank_le (by simp [hcallback])
      cases hproducer : s.reader.producer with
      | waiting =>
          have hstep : s.step .noBuffer = .ok { s with callback := .finished } := by
            simp [State.step, hcallback, hproducer]
          exact ⟨_, (reachable_of_step hstep).trans (leave_ends rfl hrank), rfl, rfl⟩
      | counting n => exact ⟨_, count_ends hcallback hrank hproducer, rfl, rfl⟩
      | enqueueing b =>
          have hsem : s.reader.buffers.enqueueSem ≠ 0 := by
            intro hzero
            exact hfree ⟨b, hproducer,
              (FixedQueue.enqueueSem_eq_zero_iff s.reader.buffers).mp hzero⟩
          obtain ⟨q, hq⟩ : ∃ q, s.reader.buffers.enqueue b = some q := by
            unfold FixedQueue.enqueue FixedQueue.tryEnqueue
            rw [dif_neg hsem]
            exact ⟨_, rfl⟩
          have hpast : s.phase.isPast .freeBuffers = false :=
            decide_eq_false (Nat.not_lt.mpr (hrank.trans (by decide)))
          have hstep : s.step (.reader .enqueue) = .ok { s with
              reader := { s.reader with buffers := q, producer := .counting b.length } } := by
            simp [State.step, State.inbound, hcallback, hpast, EagerReader.step, hproducer, hq]
          exact ⟨_, (reachable_of_step hstep).trans (count_ends hcallback hrank rfl), rfl, rfl⟩

/-- Without a callback the consumer goes on; in `thread_join` the inbound thread, which
was told to stop, ends first. -/
theorem phase_advances (hinv : Invariant s) (houtside : s.callback = .outside)
    (hopened : s.phase ≠ .opened) (hdone : s.phase ≠ .done) :
    ∃ s', Reachable (Next State.step) s s' ∧ s'.callback = .outside ∧
      s'.phase.rank = s.phase.rank + 1 := by
  have hrun : ∀ t s' : State, s'.callback = .outside → s'.phase.rank = t.phase.rank + 1 →
      t.runFree = .ok s' → ∃ s', Reachable (Next State.step) t s' ∧ s'.callback = .outside ∧
        s'.phase.rank = t.phase.rank + 1 :=
    fun t s' houtside hrank hstep =>
      ⟨s', reachable_of_step (l := .run) hstep, houtside, hrank⟩
  cases hphase : s.phase with
  | opened => exact absurd hphase hopened
  | done => exact absurd hphase hdone
  | lockObject =>
      rw [← hphase]
      refine hrun s { s with phase := .closeFd } houtside (by rw [hphase]; rfl) ?_
      simp [State.runFree, hphase, houtside]
  | join =>
      rw [← hphase]
      by_cases hexited : s.exited = true
      · refine hrun s { s with phase := .freeReader } houtside (by rw [hphase]; rfl) ?_
        simp [State.runFree, hphase, hexited]
      · have hstopped : s.stopped = true := hinv.passed.stopped (by rw [hphase]; decide)
        have hexit : s.step .exit = .ok { s with exited := true } := by
          simp [State.step, hstopped, houtside, hexited]
        obtain ⟨s', hreach, hend⟩ :=
          hrun { s with exited := true } { s with exited := true, phase := .freeReader }
            houtside (by simp [hphase, Phase.rank]) (by simp [State.runFree, hphase])
        exact ⟨s', (reachable_of_step hexit).trans hreach, hend⟩
  | _ =>
      rw [← hphase]
      refine hrun s _ ?_ ?_ (by simp only [State.runFree, hphase]; rfl)
      · exact houtside
      · rw [hphase]
        rfl

theorem free_ends (hinv : Invariant s) (houtside : s.callback = .outside)
    (hopened : s.phase ≠ .opened) :
    ∃ s', Reachable (Next State.step) s s' ∧ s'.phase = .done := by
  induction hleft : 10 - s.phase.rank generalizing s with
  | zero =>
      refine ⟨s, .refl s, ?_⟩
      cases hphase : s.phase with
      | done => rfl
      | _ => simp [hphase, Phase.rank] at hleft
  | succ n ih =>
      have hdone : s.phase ≠ .done := by
        intro hdone
        simp [hdone, Phase.rank] at hleft
      obtain ⟨t, hreach, hout, hrank⟩ := phase_advances hinv houtside hopened hdone
      have hopened' : t.phase ≠ .opened := by
        intro hphase
        rw [hphase] at hrank
        exact absurd hrank (Nat.succ_ne_zero _).symm
      have hinv' : Invariant t :=
        hreach.invariant (fun _ _ _ hinv hnext => hinv.step (effect_of_step hnext)) hinv
      obtain ⟨s', hreach', hend⟩ := ih hinv' hout hopened' (by omega)
      exact ⟨s', hreach.trans hreach', hend⟩

/-- `eager_reader_free` can return exactly if the inbound thread is not waiting for a slot
in a full queue: then it holds the lock of the object, and the consumer that would make
room waits for that lock. -/
theorem eager_reader_free_returns_iff {bufferSize : ℕ} {maxBufferCount : UInt64}
    (h : Reachable (Next State.step) (start bufferSize maxBufferCount) s)
    (hopened : s.phase ≠ .opened) :
    (∃ s', Reachable (Next State.step) s s' ∧ s'.phase = .done) ↔ ¬ Wedged s := by
  have hinv := invariant_of_reachable h
  constructor
  · rintro ⟨s', hreach, hdone⟩ hwedged
    obtain ⟨hinv', -, b, hproducer, -⟩ := wedged_of_reachable hinv hopened hwedged hreach
    have hcallback : s'.callback = .entered := hinv'.producer (by simp [hproducer])
    have hrank := hinv'.rank_le (by simp [hcallback])
    rw [hdone] at hrank
    exact absurd hrank (by decide)
  · intro hfree
    obtain ⟨t, hreach, houtside, hphase⟩ := callback_ends hinv hfree
    have hinv' : Invariant t :=
      hreach.invariant (fun _ _ _ hinv hnext => hinv.step (effect_of_step hnext)) hinv
    obtain ⟨s', hreach', hdone⟩ := free_ends hinv' houtside (by rwa [hphase])
    exact ⟨s', hreach.trans hreach', hdone⟩

/-- A queue of one slot holds a buffer and the inbound thread has read another one when
the consumer frees the reader. -/
theorem eager_reader_free_returns_iff_fullQueue :
    ∃ s : State, s.phase = .delete ∧ Wedged s ∧
      ¬ ∃ s', Reachable (Next State.step) s s' ∧ s'.phase = .done := by
  have hend : ((exec (fun _ _ => true) State.step (start 2 1)
      [.enter, .reader (.read [1, 2]), .reader .enqueue, .reader .count, .leave, .enter,
        .reader (.read [3]), .free]).any
      fun s => decide (s.phase = .delete ∧
        s.reader.producer = .enqueueing { length := 1, offset := 0, data := [3] } ∧
        s.reader.buffers.slots ≤ s.reader.buffers.list.length)) = true := by
    decide +kernel
  obtain ⟨s, hs, hend⟩ := (Option.any_eq_true _ _).mp hend
  obtain ⟨hphase, hproducer, hfull⟩ := of_decide_eq_true hend
  have hwedged : Wedged s := ⟨_, hproducer, hfull⟩
  have hopened : s.phase ≠ .opened := by
    rw [hphase]
    decide
  refine ⟨s, hphase, hwedged, fun hreturns => ?_⟩
  exact (eager_reader_free_returns_iff (Reachable.of_exec_true hs) hopened).mp hreturns hwedged

end Lifetime

end EagerReader

end Osi
