import Osi.Thread.Shutdown.LastLoop

/-!
# Posts before the stop

If all posts of clients were complete before the stop, as `thread_stop` asks for, each of
the items in the queue has its token, and the last loop does not end before they are
executed.
-/

namespace Osi

namespace Thread

open Transition
open SharedQueue (Fault Pc)

variable {T α : Type*} [DecidableEq T] [DecidableEq α] {s s' : State T α} [Fintype T]

/-- Clients post before the thread is stopped: when `thread_stop` is called, no
`thread_post` of a client is in progress, and none is called later. -/
def PostsBeforeStop (s : State T α) : Label T α → Prop
  | .post _ _ => s.stopped = false
  | .stop _ => ∀ t, (s.workQueue.pc (some t)).isIdle = true
  | .itemStops => ∀ t, (s.workQueue.pc (some t)).isIdle = true
  | _ => True

instance (s : State T α) (l : Label T α) : Decidable (PostsBeforeStop s l) :=
  match l with
  | .post _ _ => inferInstanceAs (Decidable (_ = _))
  | .client _ => isTrue trivial
  | .stop _ => inferInstanceAs (Decidable (∀ _, _ = _))
  | .wait _ => isTrue trivial
  | .run => isTrue trivial
  | .itemPosts _ => isTrue trivial
  | .itemStops => inferInstanceAs (Decidable (∀ _, _ = _))
  | .itemReturns => isTrue trivial

def Caller.events : Caller → List Event
  | .callback events => events
  | .drain _ => []

def Phase.events : Phase α → List Event
  | .reactor events => events
  | .dequeuing events => events
  | .executing _ caller => caller.events
  | .posting _ caller => caller.events
  | .draining _ => []
  | .returned _ => []

def Phase.AtEnd (pc : Pc α) : Phase α → Prop
  | .draining _ => pc = .idle (.data none)
  | .returned _ => True
  | _ => False

structure Quiet (s : State T α) : Prop where
  idle : s.stopped = true → ∀ t, (s.workQueue.pc (some t)).isIdle = true
  stopped : s.phase.inLoop = true ∨ .stop ∈ s.phase.events → s.stopped = true
  done : s.phase.AtEnd (s.workQueue.pc none) → ∀ before items,
    s.atReturn = some (before, items) → before.length + items.length ≤ s.finished.length

omit [DecidableEq T] [DecidableEq α] in
/-- Clients that do nothing leave a token for every item. -/
theorem Invariant.list_eq_nil (hinv : Invariant s)
    (hidle : ∀ t, (s.workQueue.pc (some t)).isIdle = true)
    (hpc : s.workQueue.pc none = .dequeueTryWait) (hsem : s.workQueue.dequeueSem = 0) :
    s.workQueue.list = [] := by
  have htokens := hinv.queue.tokens_eq
  have hnone : ∀ p : Pc α → Bool, p .dequeueTryWait = false → (∀ r, p (.idle r) = false) →
      threads p s.workQueue.pc = 0 := by
    intro p hp hp'
    refine threads_eq_zero fun t => ?_
    cases t with
    | none => rw [hpc, hp]
    | some t =>
      have ht := hidle t
      cases hv : s.workQueue.pc (some t) with
      | idle r => exact hp' r
      | _ =>
        rw [hv] at ht
        cases ht
  rw [hsem, hnone Pc.tookToken rfl fun _ => rfl, hnone Pc.owesToken rfl fun _ => rfl] at htokens
  exact List.length_eq_zero_iff.mp htokens.symm

omit [Fintype T] in
theorem Quiet.idle_step {l : Label T α} (hquiet : Quiet s) (hguard : PostsBeforeStop s l)
    (h : Effect s l s') : s'.stopped = true → ∀ t, (s'.workQueue.pc (some t)).isIdle = true := by
  intro hstopped t
  have hworker : ∀ v, ((s.workQueue.goto none v).pc (some t)).isIdle =
      (s.workQueue.pc (some t)).isIdle := by
    intro v
    rw [SharedQueue.goto_pc_of_ne _ (Option.some_ne_none t)]
  cases h with
  | client u h =>
    rcases h with ⟨item, rfl, -⟩ | hrun
    · exact absurd hstopped (Bool.eq_false_iff.mp hguard)
    · -- an idle client has nothing to go on with
      have hidle := hquiet.idle hstopped u
      cases hpc : s.workQueue.pc (some u) with
      | idle r => simp [SharedQueue.State.step, SharedQueue.State.advance, hpc] at hrun
      | _ =>
        rw [hpc] at hidle
        cases hidle
  | stop h =>
    rcases h with ⟨u, rfl⟩ | rfl
    · exact hguard t
    · exact hguard t
  | enqueue hphase h =>
    have hpc := SharedQueue.advance_pc_of_ne h (Option.some_ne_none t)
    rw [hpc]
    exact hquiet.idle hstopped t
  | dequeue hphase h =>
    have hpc := SharedQueue.advance_pc_of_ne h (Option.some_ne_none t)
    rw [hpc]
    exact hquiet.idle hstopped t
  | callback hphase => exact (hworker _).trans (hquiet.idle hstopped t)
  | returnFromReactor hphase => exact (hworker _).trans (hquiet.idle hstopped t)
  | itemPosts hphase => exact (hworker _).trans (hquiet.idle hstopped t)
  | itemReturnsDrain hphase => exact (hworker _).trans (hquiet.idle hstopped t)
  | _ => exact hquiet.idle hstopped t

omit [Fintype T] in
/-- A stop that is reported, or that the thread has acted on, was requested. -/
theorem Quiet.stopped_step {l : Label T α} (hquiet : Quiet s) (h : Effect s l s') :
    s'.phase.inLoop = true ∨ .stop ∈ s'.phase.events → s'.stopped = true := by
  have hstopped := hquiet.stopped
  cases h with
  | client t h => exact hstopped
  | stop _ => exact fun _ => rfl
  | wait hphase hready =>
    rintro (hloop | hevent)
    · cases hloop
    · exact hready _ hevent
  | enqueue hphase h => exact hstopped
  | dequeue hphase h => exact hstopped
  | callback hphase =>
    rw [hphase] at hstopped
    exact fun hor => hstopped (hor.imp id (List.mem_cons_of_mem _))
  | returnFromReactor hphase =>
    rw [hphase] at hstopped
    exact fun _ => hstopped (.inr List.mem_cons_self)
  | execute hphase hpc =>
    rw [hphase] at hstopped
    exact hstopped
  | posted hphase hpc =>
    rw [hphase] at hstopped
    exact hstopped
  | drain hphase hpc hcount =>
    rw [hphase] at hstopped
    exact hstopped
  | giveUp hphase hpc hcount =>
    rw [hphase] at hstopped
    exact hstopped
  | empty hphase hpc =>
    rw [hphase] at hstopped
    exact hstopped
  | itemPosts hphase =>
    rw [hphase] at hstopped
    exact hstopped
  | itemReturns hphase =>
    rw [hphase] at hstopped
    exact hstopped
  | itemReturnsDrain hphase =>
    rw [hphase] at hstopped
    exact fun _ => hstopped (.inl rfl)

/-- When the last loop ends, what was in the queue when `reactor_start` returned has
been executed. -/
theorem Quiet.done_step {l : Label T α} (hinv : Invariant s) (hrem : Remaining s)
    (hcounts : s.capacity.toNat + 1 < 2 ^ 64 → s.phase.Counts s.capacity.toNat s.drained)
    (hquiet : Quiet s) (h : Effect s l s') :
    s'.phase.AtEnd (s'.workQueue.pc none) → ∀ before items,
      s'.atReturn = some (before, items) → before.length + items.length ≤ s'.finished.length := by
  have hdone := hquiet.done
  cases h with
  | client t h =>
    obtain ⟨-, -, hnone, -⟩ := hinv.client h
    rw [hnone]
    exact hdone
  | stop _ => exact hdone
  | enqueue hphase h =>
    rw [hphase]
    exact fun hend => hend.elim
  | @dequeue q hphase h =>
    rcases hphase with ⟨events, hphase⟩ | ⟨count, hphase⟩
    · rw [hphase]
      exact fun hend => hend.elim
    · intro hend before items hat
      rw [hphase] at hend
      obtain ⟨hstopped, hloop⟩ : s.stopped = true ∧ s.phase.inLoop = true := by
        rw [hphase]
        exact ⟨hquiet.stopped (.inl (by rw [hphase]; rfl)), rfl⟩
      obtain ⟨before', items', hat', hlength, hinitial, hle⟩ := hrem.loop hloop
      obtain ⟨rfl, rfl⟩ := Prod.mk.inj (Option.some.inj (hat.symm.trans hat'))
      obtain ⟨hpc', -, hcases⟩ :=
        SharedQueue.advance_dequeues (hinv.dequeuing (.inr ⟨count, hphase⟩)).2.2 h
      obtain ⟨front, rest, -, -, -, -, htaken⟩ | ⟨-, -, -, htry, hsem, -⟩ | ⟨-, -, -, hne⟩ := hcases
      · change q.pc none = _ at hend
        rw [hend] at htaken
        cases htaken
      · -- without a token the queue is empty, and all that came to it is executed
        have hnil := hinv.list_eq_nil (hquiet.idle hstopped) htry hsem
        have hfifo := hinv.fifo
        have hremoved := hinv.removed
        rw [State.inHand, hphase] at hremoved
        simp only [htry, Pc.taken, List.append_nil] at hremoved
        rw [SharedQueue.Fifo, hnil, hremoved, List.map_nil, List.append_nil] at hfifo
        rw [hfifo] at hinitial
        rw [← List.length_append]
        exact hinitial.length_le
      · exact absurd hend hne
  | callback hphase => exact fun hend => hend.elim
  | returnFromReactor hphase =>
    intro hend
    change (s.workQueue.goto none _).pc none = _ at hend
    rw [SharedQueue.goto_pc_self] at hend
    cases hend
  | giveUp hphase hpc hcount =>
    intro _ before items hat
    obtain ⟨before', items', hat', hlength, -, hle⟩ := hrem.loop (by rw [hphase]; rfl)
    obtain ⟨rfl, rfl⟩ := Prod.mk.inj (Option.some.inj (hat.symm.trans hat'))
    rw [UInt64.le_iff_toNat_le, not_le] at hcount
    rw [hphase] at hcounts
    have hlt := (hcounts (Nat.lt_of_le_of_lt hcount (UInt64.toNat_lt _))).1
    change before.length + items.length ≤ s.finished.length
    omega
  | empty hphase hpc =>
    rw [hphase] at hdone
    exact fun _ => hdone hpc
  | itemReturnsDrain hphase =>
    intro hend
    change (s.workQueue.goto none _).pc none = _ at hend
    rw [SharedQueue.goto_pc_self] at hend
    cases hend
  | _ => exact fun hend => hend.elim

end Thread

end Osi
