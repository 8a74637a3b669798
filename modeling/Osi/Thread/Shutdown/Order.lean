import Osi.Thread.Shutdown.Steps

/-!
# The items are executed in order

In every run the items are executed one after the other, in the order in which they
came into the queue: what was appended is what was executed, then what the thread has
in hand, then what is in the queue.
-/

namespace Osi

namespace Thread

open Transition
open SharedQueue (Fault Pc)

variable {T α : Type*} [DecidableEq T] [DecidableEq α] {s s' : State T α}

/-- What the thread has taken from the queue and not finished. -/
def State.inHand (s : State T α) : List α :=
  match s.phase with
  | .reactor _ => []
  | .dequeuing _ => (s.workQueue.pc none).taken
  | .executing item _ => [item]
  | .posting item _ => [item]
  | .draining _ => (s.workQueue.pc none).taken
  | .returned item => item.toList

/-- The point of the queue that the thread is at fits its phase. -/
def Phase.At (pc : Pc α) : Phase α → Prop
  | .reactor _ => pc.isIdle = true
  | .dequeuing _ => pc.dequeues = true
  | .executing _ _ => pc.isIdle = true
  | .posting _ _ => pc.enqueues = true
  | .draining _ => pc.dequeues = true
  | .returned _ => pc.isIdle = true

variable [Fintype T]

structure Invariant (s : State T α) : Prop where
  queue : SharedQueue.Invariant (semaphoreNew s.capacity.toUInt32) s.workQueue
  fifo : SharedQueue.Fifo s.workQueue
  clients : ∀ t, (s.workQueue.pc (some t)).enqueues = true
  worker : s.phase.At (s.workQueue.pc none)
  removed : s.workQueue.removed = s.finished ++ s.inHand

omit [DecidableEq T] [DecidableEq α] in
theorem invariant_threadNewSized (capacity : UInt64) :
    Invariant (threadNewSized capacity : State T α) where
  queue := SharedQueue.Invariant.init capacity
  fifo := rfl
  clients _ := rfl
  worker := rfl
  removed := rfl

theorem Invariant.client {q : SharedQueue.State (Option T) α} {l : Label T α} {t : T}
    (hinv : Invariant s)
    (h : (∃ item, l = .post t item ∧
        s.workQueue.step (.call (some t) (.enqueue item)) = .ok q) ∨
      s.workQueue.step (.run (some t)) = .ok q) :
    SharedQueue.Fifo q ∧ (∀ u, (q.pc (some u)).enqueues = true) ∧ q.pc none = s.workQueue.pc none ∧
      q.removed = s.workQueue.removed ∧ ∃ items, q.appended = s.workQueue.appended ++ items := by
  rcases h with ⟨item, -, hcall⟩ | hrun
  · obtain ⟨-, rfl⟩ := SharedQueue.step_call hcall
    refine ⟨hinv.fifo, fun u => ?_, SharedQueue.goto_pc_of_ne _ (Option.some_ne_none t).symm _,
      rfl, [], ?_⟩
    · by_cases hut : u = t
      · subst hut
        rw [SharedQueue.goto_pc_self]
        rfl
      · rw [SharedQueue.goto_pc_of_ne _ fun heq => hut (Option.some.inj heq)]
        exact hinv.clients u
    · exact (List.append_nil _).symm
  · have hpc := hinv.clients t
    obtain ⟨hpc', hremoved, hlists⟩ := SharedQueue.advance_enqueues hpc hrun
    refine ⟨hinv.fifo.advance_enqueues hpc hrun, fun u => ?_,
      SharedQueue.advance_pc_of_ne hrun (Option.some_ne_none t).symm, hremoved, ?_⟩
    · by_cases hut : u = t
      · subst hut
        exact hpc'
      · rw [SharedQueue.advance_pc_of_ne hrun fun heq => hut (Option.some.inj heq)]
        exact hinv.clients u
    · rcases hlists with ⟨-, happended⟩ | ⟨x, -, happended⟩
      · exact ⟨[], happended.trans (List.append_nil _).symm⟩
      · exact ⟨[x], happended⟩

/-- The thread starts a call on its queue; nothing but its own point changes. -/
theorem Invariant.goto (hinv : Invariant s) (op : SharedQueue.Op α) (phase : Phase α)
    (hidle : (s.workQueue.pc none).isIdle = true) (hat : phase.At op.entry)
    {finished : List α} {drained : ℕ} {atReturn : Option (List α × List α)}
    (hremoved : s.workQueue.removed = finished ++
      ({ s with phase := phase, workQueue := s.workQueue.goto none op.entry } : State T α).inHand) :
    Invariant
      { s with
        workQueue := s.workQueue.goto none op.entry
        phase := phase
        finished := finished
        drained := drained
        atReturn := atReturn } := by
  have hcall : s.workQueue.step (.call none op) = .ok (s.workQueue.goto none op.entry) := by
    cases hpc : s.workQueue.pc none with
    | idle r => simp [SharedQueue.State.step, hpc]
    | _ =>
      rw [hpc] at hidle
      cases hidle
  refine ⟨hinv.queue.step hcall, hinv.fifo, fun t => ?_, ?_, hremoved⟩
  · rw [SharedQueue.goto_pc_of_ne _ (Option.some_ne_none t)]
    exact hinv.clients t
  · rw [SharedQueue.goto_pc_self]
    exact hat

omit [DecidableEq T] [DecidableEq α] in
theorem Invariant.dequeuing (hinv : Invariant s)
    (hphase : (∃ events, s.phase = .dequeuing events) ∨ ∃ count, s.phase = .draining count) :
    (∀ {pc}, pc.dequeues = true → s.phase.At pc) ∧
      (∀ q, ({ s with workQueue := q } : State T α).inHand = (q.pc none).taken) ∧
      (s.workQueue.pc none).dequeues = true := by
  have hworker := hinv.worker
  rcases hphase with ⟨events, hphase⟩ | ⟨count, hphase⟩
  · rw [hphase] at hworker
    exact ⟨fun hpc => by rw [hphase]; exact hpc, fun q => by rw [State.inHand, hphase], hworker⟩
  · rw [hphase] at hworker
    exact ⟨fun hpc => by rw [hphase]; exact hpc, fun q => by rw [State.inHand, hphase], hworker⟩

omit [DecidableEq T] [DecidableEq α] in
/-- The call of the thread on its queue has returned `item`; that is what it has in hand now. -/
theorem Invariant.dequeued {phase : Phase α} {item : Option α} (hinv : Invariant s)
    (hphase : (∃ events, s.phase = .dequeuing events) ∨ ∃ count, s.phase = .draining count)
    (hpc : s.workQueue.pc none = .idle (.data item))
    (hat : phase.At (.idle (.data item)))
    (hinHand : ({ s with phase := phase } : State T α).inHand = item.toList) :
    Invariant { s with phase := phase } := by
  have htaken : s.inHand = (s.workQueue.pc none).taken :=
    (hinv.dequeuing hphase).2.1 s.workQueue
  refine ⟨hinv.queue, hinv.fifo, hinv.clients, ?_, ?_⟩
  · rw [hpc]
    exact hat
  · rw [hinHand, hinv.removed, htaken, hpc]
    cases item <;> rfl

theorem Invariant.step {l : Label T α} (hinv : Invariant s) (h : Effect s l s') :
    Invariant s' := by
  have hworker := hinv.worker
  have hremoved := hinv.removed
  cases h with
  | @client q t h =>
    obtain ⟨hfifo, hclients, hnone, hremoved', -⟩ := hinv.client h
    have hqueue : SharedQueue.Invariant (semaphoreNew s.capacity.toUInt32) q := by
      rcases h with ⟨item, -, hcall⟩ | hrun
      · exact hinv.queue.step hcall
      · exact hinv.queue.step hrun
    refine ⟨hqueue, hfifo, hclients, ?_, ?_⟩
    · rw [hnone]
      exact hworker
    · rw [hremoved', hremoved]
      simp only [State.inHand, hnone]
  | stop _ => exact ⟨hinv.queue, hinv.fifo, hinv.clients, hinv.worker, hinv.removed⟩
  | wait hphase hready =>
    rw [hphase] at hworker
    rw [State.inHand, hphase] at hremoved
    exact ⟨hinv.queue, hinv.fifo, hinv.clients, hworker, hremoved⟩
  | @enqueue q item caller hphase h =>
    rw [hphase] at hworker
    rw [State.inHand, hphase] at hremoved
    obtain ⟨hpc', hremoved', -⟩ := SharedQueue.advance_enqueues hworker h
    refine ⟨hinv.queue.step h, hinv.fifo.advance_enqueues hworker h, fun t => ?_, ?_, ?_⟩
    · have hpc := SharedQueue.advance_pc_of_ne h (Option.some_ne_none t)
      rw [hpc]
      exact hinv.clients t
    · rw [hphase]
      exact hpc'
    · rw [hremoved', hremoved]
      simp only [State.inHand, hphase]
  | @dequeue q hphase h =>
    obtain ⟨hat, hinHand, hpc⟩ := hinv.dequeuing hphase
    obtain ⟨hpc', -, hcases⟩ := SharedQueue.advance_dequeues hpc h
    refine ⟨hinv.queue.step h, hinv.fifo.advance_dequeues hpc h, fun t => ?_, hat hpc', ?_⟩
    · have hother := SharedQueue.advance_pc_of_ne h (Option.some_ne_none t)
      rw [hother]
      exact hinv.clients t
    · rw [hinHand] at hremoved ⊢
      obtain ⟨front, rest, -, -, hremoved', htaken, htaken'⟩ | ⟨-, hremoved', htaken, -, -, hnone⟩ |
        ⟨-, hremoved', htaken, -⟩ := hcases
      · rw [hremoved', hremoved, htaken, htaken', List.append_nil]
      · rw [hremoved', hremoved, htaken, hnone]
        rfl
      · rw [hremoved', hremoved, htaken]
  | @callback events hphase =>
    rw [hphase] at hworker
    rw [State.inHand, hphase] at hremoved
    refine hinv.goto .dequeue (.dequeuing events) hworker rfl ?_
    simpa [State.inHand, SharedQueue.Op.entry, Pc.taken] using hremoved
  | @returnFromReactor events hphase =>
    rw [hphase] at hworker
    rw [State.inHand, hphase] at hremoved
    refine hinv.goto .tryDequeue (.draining 0) hworker rfl ?_
    simpa [State.inHand, SharedQueue.Op.entry, Pc.taken] using hremoved
  | execute hphase hpc => exact hinv.dequeued (.inl ⟨_, hphase⟩) hpc rfl rfl
  | posted hphase hpc =>
    rw [hphase] at hworker
    rw [State.inHand, hphase] at hremoved
    exact ⟨hinv.queue, hinv.fifo, hinv.clients, hpc, hremoved⟩
  | drain hphase hpc hcount => exact hinv.dequeued (.inr ⟨_, hphase⟩) hpc rfl rfl
  | giveUp hphase hpc hcount => exact hinv.dequeued (.inr ⟨_, hphase⟩) hpc rfl rfl
  | empty hphase hpc => exact hinv.dequeued (.inr ⟨_, hphase⟩) hpc rfl rfl
  | @itemPosts current item caller hphase =>
    rw [hphase] at hworker
    rw [State.inHand, hphase] at hremoved
    exact hinv.goto (.enqueue item) (.posting current caller) hworker rfl hremoved
  | itemReturns hphase =>
    rw [hphase] at hworker
    rw [State.inHand, hphase] at hremoved
    refine ⟨hinv.queue, hinv.fifo, hinv.clients, hworker, ?_⟩
    rw [hremoved]
    exact (List.append_nil _).symm
  | @itemReturnsDrain count item hphase =>
    rw [hphase] at hworker
    rw [State.inHand, hphase] at hremoved
    refine hinv.goto .tryDequeue (.draining (count + 1)) hworker rfl ?_
    simpa [State.inHand, SharedQueue.Op.entry, Pc.taken] using hremoved

theorem Invariant.appended_step {l : Label T α} (hinv : Invariant s) (h : Effect s l s') :
    s.workQueue.appended <+: s'.workQueue.appended := by
  cases h with
  | client t h =>
    obtain ⟨-, -, -, -, items, happended⟩ := hinv.client h
    exact ⟨items, happended.symm⟩
  | enqueue hphase h =>
    have hworker := hinv.worker
    rw [hphase] at hworker
    obtain ⟨-, -, ⟨-, happended⟩ | ⟨x, -, happended⟩⟩ := SharedQueue.advance_enqueues hworker h
    · exact ⟨[], (List.append_nil _).trans happended.symm⟩
    · exact ⟨[x], happended.symm⟩
  | dequeue hphase h =>
    obtain ⟨-, happended, -⟩ := SharedQueue.advance_dequeues (hinv.dequeuing hphase).2.2 h
    exact ⟨[], (List.append_nil _).trans happended.symm⟩
  | _ => exact List.prefix_rfl

end Thread

end Osi
