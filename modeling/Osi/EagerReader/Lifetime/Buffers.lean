import Osi.EagerReader.Lifetime.Steps

/-!
# The buffers of a reader that is freed

A buffer that was read into is in the hands of the inbound thread, in the queue, the
current one, or freed, and the four keep the order of the chunks.
-/

namespace Osi

namespace EagerReader

namespace Lifetime

open Transition

variable {s s' : State} {l : Label}

structure Passed (p : Phase) (s : State) : Prop where
  outside : 4 ≤ p.rank → s.callback = .outside
  current : 6 ≤ p.rank → s.reader.currentBuffer = none
  queue : 7 ≤ p.rank → s.reader.buffers.list = []
  stopped : 8 ≤ p.rank → s.stopped = true
  exited : 9 ≤ p.rank → s.exited = true

theorem Passed.early {p : Phase} (hp : p.rank ≤ 3) : Passed p s :=
  ⟨fun h => by omega, fun h => by omega, fun h => by omega, fun h => by omega,
    fun h => by omega⟩

structure Invariant (s : State) : Prop where
  chunks : s.chunks = s.released ++ s.buffered ++ s.inHand
  producer : s.reader.producer ≠ .waiting → s.callback = .entered
  passed : Passed s.phase s

theorem invariant_start (bufferSize : ℕ) (maxBufferCount : UInt64) :
    Invariant (start bufferSize maxBufferCount) where
  chunks := rfl
  producer h := absurd rfl h
  passed := Passed.early (p := .opened) (by decide)

/-- The contents of the buffers that a step of the consumer takes out or releases. -/
theorem buffered_of_stepCase {reader : EagerReader} {l : EagerReader.Label}
    (h : StepCase s.reader l reader) (hproducer : reader.producer = s.reader.producer) :
    s.buffered =
      (if reader.currentBuffer.isNone then (s.reader.currentBuffer.map DataBuffer.data).toList
        else []) ++ (reader.currentBuffer.map DataBuffer.data).toList ++
        reader.buffers.list.map DataBuffer.data := by
  have hsame : reader.currentBuffer = s.reader.currentBuffer →
      reader.buffers = s.reader.buffers → s.buffered =
      (if reader.currentBuffer.isNone then (s.reader.currentBuffer.map DataBuffer.data).toList
        else []) ++ (reader.currentBuffer.map DataBuffer.data).toList ++
        reader.buffers.list.map DataBuffer.data := by
    intro hcurrent hbuffers
    rw [State.buffered, hcurrent, hbuffers]
    cases s.reader.currentBuffer <;> simp
  cases h with
  | read hp => rw [hp] at hproducer; cases hproducer
  | readFailed => exact hsame rfl rfl
  | enqueue hp => rw [hp] at hproducer; cases hproducer
  | count hp => rw [hp] at hproducer; cases hproducer
  | call => exact hsame rfl rfl
  | pollEmpty => exact hsame rfl rfl
  | poll => exact hsame rfl rfl
  | fetch => exact hsame rfl rfl
  | dequeue hc hb hq =>
      simp [State.buffered, hb, FixedQueue.list_of_dequeue hq]
  | @copy c b hc hb =>
      have hdata : ∀ b', (copyFrom c b).2 = some b' → b'.data = b.data := by
        intro b' hb'
        simp only [copyFrom] at hb'
        split_ifs at hb' <;> cases hb' <;> rfl
      cases hnext : (copyFrom c b).2 with
      | none => simp [State.buffered, hb]
      | some b' => simp [State.buffered, hb, hdata b' hnext]
  | finish => exact hsame rfl rfl

/-- A callback is running: the consumer has not come past its wait. -/
theorem Invariant.rank_le (hinv : Invariant s) (h : s.callback ≠ .outside) :
    s.phase.rank ≤ 3 := by
  by_contra hrank
  exact h (hinv.passed.outside (by omega))

theorem Invariant.step (hinv : Invariant s) (h : Effect s l s') : Invariant s' := by
  obtain ⟨hchunks, hproducer, hpassed⟩ := id hinv
  cases h with
  | enter hcallback _ hphase =>
      exact ⟨hchunks, fun _ => rfl, Passed.early (Nat.le_succ_of_le hphase)⟩
  | finish hcallback hwaiting =>
      exact ⟨hchunks, fun h => absurd hwaiting h,
        Passed.early (hinv.rank_le (by simp [hcallback]))⟩
  | @read chunk hcallback hwaiting =>
      refine ⟨?_, fun _ => hcallback, Passed.early (hinv.rank_le (by simp [hcallback]))⟩
      simp only [State.inHand, hwaiting, List.append_nil] at hchunks
      simp [hchunks, State.buffered, State.inHand]
  | @enqueue b q hcallback henqueueing hq =>
      obtain ⟨-, hlist, -⟩ := (FixedQueue.enqueue_eq_some_iff _ _ _).mp hq
      refine ⟨?_, fun _ => hcallback, Passed.early (hinv.rank_le (by simp [hcallback]))⟩
      simp only [State.inHand, henqueueing] at hchunks
      simp [hchunks, State.buffered, State.inHand, hlist]
  | @count n hcallback hcounting =>
      refine ⟨?_, fun h => absurd rfl h, Passed.early (hinv.rank_le (by simp [hcallback]))⟩
      simp only [State.inHand, hcounting] at hchunks
      simp [hchunks, State.buffered, State.inHand]
  | @consume _ reader hphase hreader hsame =>
      have hrank : s.phase.rank ≤ 3 := by rw [hphase]; decide
      refine ⟨?_, fun h => hproducer (hsame ▸ h), Passed.early hrank⟩
      rw [buffered_of_stepCase hreader hsame] at hchunks
      simp only [State.inHand, State.buffered, hsame] at hchunks ⊢
      simp only [hchunks, List.append_assoc]
  | leave hcallback =>
      refine ⟨hchunks, fun h => ?_, Passed.early (hinv.rank_le (by simp [hcallback]))⟩
      rw [hproducer h] at hcallback
      cases hcallback
  | exit =>
      exact ⟨hchunks, hproducer, hpassed.outside, hpassed.current, hpassed.queue,
        hpassed.stopped, fun _ => rfl⟩
  | free => exact ⟨hchunks, hproducer, Passed.early (p := .delete) (by decide)⟩
  | @unregister phase hphase =>
      have hrank : phase.rank ≤ 3 := by
        obtain ⟨-, rfl⟩ | ⟨-, rfl⟩ := hphase <;> decide
      exact ⟨hchunks, hproducer, Passed.early hrank⟩
  | lockObject hphase hcallback =>
      refine ⟨hchunks, hproducer, ?_⟩
      exact show Passed .closeFd _ from ⟨fun _ => hcallback, fun h => absurd h (by decide),
        fun h => absurd h (by decide), fun h => absurd h (by decide),
        fun h => absurd h (by decide)⟩
  | closeFd hphase =>
      rw [hphase] at hpassed
      refine ⟨hchunks, hproducer, ?_⟩
      exact show Passed .freeCurrent _ from ⟨fun _ => hpassed.outside (by decide),
        fun h => absurd h (by decide), fun h => absurd h (by decide),
        fun h => absurd h (by decide), fun h => absurd h (by decide)⟩
  | freeCurrent hphase =>
      rw [hphase] at hpassed
      refine ⟨?_, hproducer, ?_⟩
      · simp [hchunks, State.buffered, State.inHand]
      · exact show Passed .freeBuffers _ from ⟨fun _ => hpassed.outside (by decide),
          fun _ => rfl, fun h => absurd h (by decide), fun h => absurd h (by decide),
          fun h => absurd h (by decide)⟩
  | freeBuffers hphase =>
      rw [hphase] at hpassed
      refine ⟨?_, hproducer, ?_⟩
      · simp [hchunks, State.buffered, State.inHand, hpassed.current (by decide)]
      · exact show Passed .stop _ from ⟨fun _ => hpassed.outside (by decide),
          fun _ => hpassed.current (by decide), fun _ => rfl, fun h => absurd h (by decide),
          fun h => absurd h (by decide)⟩
  | stop hphase =>
      rw [hphase] at hpassed
      refine ⟨hchunks, hproducer, ?_⟩
      exact show Passed .join _ from ⟨fun _ => hpassed.outside (by decide),
        fun _ => hpassed.current (by decide), fun _ => hpassed.queue (by decide),
        fun _ => rfl, fun h => absurd h (by decide)⟩
  | join hphase hexit =>
      rw [hphase] at hpassed
      refine ⟨hchunks, hproducer, ?_⟩
      exact show Passed .freeReader _ from ⟨fun _ => hpassed.outside (by decide),
        fun _ => hpassed.current (by decide), fun _ => hpassed.queue (by decide),
        fun _ => hpassed.stopped (by decide), fun _ => hexit⟩
  | freeReader hphase =>
      rw [hphase] at hpassed
      refine ⟨hchunks, hproducer, ?_⟩
      exact show Passed .done _ from ⟨fun _ => hpassed.outside (by decide),
        fun _ => hpassed.current (by decide), fun _ => hpassed.queue (by decide),
        fun _ => hpassed.stopped (by decide), fun _ => hpassed.exited (by decide)⟩

theorem invariant_of_reachable {bufferSize : ℕ} {maxBufferCount : UInt64}
    (h : Reachable (Next State.step) (start bufferSize maxBufferCount) s) : Invariant s := by
  refine h.invariant ?_ (invariant_start bufferSize maxBufferCount)
  intro s l s' hinv hnext
  exact hinv.step (effect_of_step hnext)

/-- A callback is over when the consumer begins to release what it uses. -/
theorem inbound_ne_released (hinv : Invariant s) {l : EagerReader.Label} {p : Phase}
    {chunk : List (List UInt8)} {callback : Callback} (hp : 3 ≤ p.rank) :
    s.inbound l (s.phase.isPast p) chunk callback ≠ .error .released := by
  unfold State.inbound
  split_ifs with hcallback hpast
  · have hrank : p.rank < s.phase.rank := of_decide_eq_true hpast
    rw [hinv.passed.outside (by omega)] at hcallback
    cases hcallback
  · split <;> simp
  · simp

theorem consume_ne_released {l : EagerReader.Label} : s.consume l ≠ .error .released := by
  unfold State.consume
  split_ifs
  · split <;> simp
  · simp

theorem step_ne_released (hinv : Invariant s) (l : Label) : s.step l ≠ .error .released := by
  cases l with
  | reader l =>
      cases l with
      | read chunk => exact inbound_ne_released hinv (by decide)
      | readFailed => exact inbound_ne_released hinv (by decide)
      | enqueue => exact inbound_ne_released hinv (by decide)
      | count => exact inbound_ne_released hinv (by decide)
      | _ => exact consume_ne_released
  | leave =>
      simp only [State.step]
      split_ifs with hcallback hpast
      · have hrank : Phase.rank .lockObject < s.phase.rank := of_decide_eq_true hpast
        rw [hinv.passed.outside hrank] at hcallback
        cases hcallback
      · simp
      · simp
  | run =>
      simp only [State.step, State.runFree]
      split <;> first | (intro h; cases h) | (split_ifs <;> simp)
  | _ =>
      simp only [State.step]
      split_ifs <;> simp

/-- In every run: nothing is used that `eager_reader_free` has released, the buffers that
were read into are those that were freed, are in the reader or in the hand of the inbound
thread, each once and in order; and when `eager_reader_free` has returned all of them are
freed and the inbound thread has ended. -/
theorem eager_reader_free_safe {bufferSize : ℕ} {maxBufferCount : UInt64}
    (h : Reachable (Next State.step) (start bufferSize maxBufferCount) s) :
    (∀ l, s.step l ≠ .error .released) ∧
      s.chunks = s.released ++ s.buffered ++ s.inHand ∧
      (s.phase = .done → s.released = s.chunks ∧ s.exited = true) := by
  have hinv := invariant_of_reachable h
  refine ⟨step_ne_released hinv, hinv.chunks, fun hdone => ?_⟩
  have hrank : s.phase.rank = 10 := by rw [hdone]; rfl
  have hwaiting : s.reader.producer = .waiting := by
    by_contra hne
    have hcallback := hinv.producer hne
    rw [hinv.passed.outside (by omega)] at hcallback
    cases hcallback
  refine ⟨?_, hinv.passed.exited (by omega)⟩
  rw [hinv.chunks]
  simp [State.buffered, State.inHand, hinv.passed.current (by omega),
    hinv.passed.queue (by omega), hwaiting]

/-- Two chunks are read, the second while the reader is being freed. -/
theorem eager_reader_free_safe_twoChunks :
    ∃ s : State, s.phase = .done ∧ s.released = [[1, 2], [3]] ∧
      (∀ l, s.step l ≠ .error .released) ∧ s.exited = true := by
  have hend : ((exec (fun _ _ => true) State.step (start 2 2)
      [.enter, .reader (.read [1, 2]), .reader .enqueue, .reader .count, .leave, .enter,
        .reader (.read [3]), .free, .run, .run, .reader .enqueue, .reader .count, .leave,
        .run, .run, .run, .run, .run, .exit, .run, .run]).any
      fun s => decide (s.phase = .done ∧ s.chunks = [[1, 2], [3]])) = true := by
    decide +kernel
  obtain ⟨s, hs, hend⟩ := (Option.any_eq_true _ _).mp hend
  obtain ⟨hdone, hchunks⟩ := of_decide_eq_true hend
  obtain ⟨hsafe, -, hall⟩ := eager_reader_free_safe (Reachable.of_exec_true hs)
  obtain ⟨hreleased, hexited⟩ := hall hdone
  exact ⟨s, hdone, hreleased.trans hchunks, hsafe, hexited⟩

end Lifetime

end EagerReader

end Osi
