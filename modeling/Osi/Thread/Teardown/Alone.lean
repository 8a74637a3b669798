import Osi.Thread.Teardown.Ready

/-!
# The thread alone

The clients of a stopped thread do nothing any more. A call on the queue that the thread
has begun comes to its end then, unless it waits for a place in the full queue.
-/

namespace Osi

namespace Thread

open Transition
open SharedQueue (Pc)

variable {T α : Type*} [DecidableEq T] [DecidableEq α] {t t' : State T α} {l : Label T α}
  [Fintype T]

def callLeft : Pc α → ℕ
  | .enqueueWait _ | .dequeueWait | .dequeueTryWait => 5
  | .enqueueLock _ _ | .dequeueLock => 4
  | .enqueueAppend _ _ | .dequeueRemove => 3
  | .enqueueUnlock _ | .dequeueUnlock _ => 2
  | .enqueuePost _ | .dequeuePost _ => 1
  | _ => 0

omit [DecidableEq T] [DecidableEq α] in
theorem lock_eq_none {slots : ℕ} {q : SharedQueue.State (Option T) α}
    (hinv : SharedQueue.Invariant slots q) (hidle : ∀ u, (q.pc (some u)).isIdle = true)
    (hholds : (q.pc none).holdsLock = false) : q.lock = none := by
  cases hlock : q.lock with
  | none => rfl
  | some u =>
      have hu := (hinv.exclusive u).mpr hlock
      cases u with
      | none =>
          rw [hholds] at hu
          cases hu
      | some u =>
          have hidle := hidle u
          cases hpc : q.pc (some u) with
          | idle r =>
              rw [hpc] at hu
              cases hu
          | _ =>
              rw [hpc] at hidle
              cases hidle

/-- Where nobody else is in a call, the call of the thread goes on, unless it waits. -/
theorem exists_advance {slots : ℕ} {q : SharedQueue.State (Option T) α}
    (hinv : SharedQueue.Invariant slots q) (hidle : ∀ u, (q.pc (some u)).isIdle = true)
    (hcall : (q.pc none).enqueues = true ∨ (q.pc none).dequeues = true)
    (hbusy : (q.pc none).isIdle = false)
    (hslot : ∀ x, q.pc none = .enqueueWait x → q.enqueueSem ≠ 0)
    (htoken : q.pc none = .dequeueWait → q.dequeueSem ≠ 0) :
    ∃ q', q.advance none = .ok q' ∧ callLeft (q'.pc none) < callLeft (q.pc none) ∧
      ∀ x, q'.pc none ≠ .enqueueWait x := by
  have hlock := lock_eq_none hinv hidle
  cases hpc : q.pc none with
  | idle r =>
      rw [hpc] at hbusy
      cases hbusy
  | enqueueWait x =>
      refine ⟨({ q with enqueueSem := q.enqueueSem - 1 } : SharedQueue.State _ α).goto none
        (.enqueueLock x .done), ?_, ?_⟩
      · simp [SharedQueue.State.advance, hpc, hslot x hpc]
      · simp [callLeft]
  | enqueueLock x r =>
      refine ⟨({ q with lock := some none } : SharedQueue.State _ α).goto none
        (.enqueueAppend x r), ?_, ?_⟩
      · simp [SharedQueue.State.advance, SharedQueue.State.acquire, hpc, hlock (by rw [hpc]; rfl)]
      · simp [callLeft]
  | enqueueAppend x r =>
      refine ⟨(q.append x).goto none (.enqueueUnlock r), ?_, ?_⟩
      · simp [SharedQueue.State.advance, hpc]
      · simp [callLeft]
  | enqueueUnlock r =>
      refine ⟨q.release none (.enqueuePost r), ?_, ?_⟩
      · simp [SharedQueue.State.advance, hpc]
      · simp [callLeft]
  | enqueuePost r =>
      refine ⟨({ q with dequeueSem := q.dequeueSem + 1 } : SharedQueue.State _ α).goto none
        (.idle r), ?_, ?_⟩
      · simp [SharedQueue.State.advance, hpc]
      · simp [callLeft]
  | dequeueWait =>
      refine ⟨({ q with dequeueSem := q.dequeueSem - 1 } : SharedQueue.State _ α).goto none
        .dequeueLock, ?_, ?_⟩
      · simp [SharedQueue.State.advance, hpc, htoken hpc]
      · simp [callLeft]
  | dequeueTryWait =>
      by_cases hsem : q.dequeueSem = 0
      · refine ⟨q.goto none (.idle (.data none)), ?_, ?_⟩
        · simp [SharedQueue.State.advance, hpc, hsem]
        · simp [callLeft]
      · refine ⟨({ q with dequeueSem := q.dequeueSem - 1 } : SharedQueue.State _ α).goto none
          .dequeueLock, ?_, ?_⟩
        · simp [SharedQueue.State.advance, hpc, hsem]
        · simp [callLeft]
  | dequeueLock =>
      refine ⟨({ q with lock := some none } : SharedQueue.State _ α).goto none .dequeueRemove, ?_,
        ?_⟩
      · simp [SharedQueue.State.advance, SharedQueue.State.acquire, hpc, hlock (by rw [hpc]; rfl)]
      · simp [callLeft]
  | dequeueRemove =>
      cases hlist : q.list with
      | nil => exact absurd hlist (hinv.list_ne_nil hpc)
      | cons front rest =>
          refine ⟨({ q with
            list := (SharedQueue.listRemove q.list front.data).1
            removed := q.removed ++ [front.data] } : SharedQueue.State _ α).goto none
              (.dequeueUnlock front.data), ?_, ?_⟩
          · simp [SharedQueue.State.advance, hpc, hlist]
          · simp [callLeft]
  | dequeueUnlock x =>
      refine ⟨q.release none (.dequeuePost x), ?_, ?_⟩
      · simp [SharedQueue.State.advance, hpc]
      · simp [callLeft]
  | dequeuePost x =>
      refine ⟨({ q with enqueueSem := q.enqueueSem + 1 } : SharedQueue.State _ α).goto none
        (.idle (.data (some x))), ?_, ?_⟩
      · simp [SharedQueue.State.advance, hpc]
      · simp [callLeft]
  | _ =>
      rw [hpc] at hcall
      rcases hcall with hcall | hcall <;> cases hcall

/-- A step that the thread and the item it executes take by themselves to come to the end. -/
def byThread : Label T α → Bool
  | .wait events => decide (events = [.stop])
  | .run | .itemReturns => true
  | _ => false

def Alone : State T α → Label T α → State T α → Prop :=
  Guarded (fun _ l => byThread l = true) (Next State.step)

/-- A stopped thread whose clients do nothing. -/
structure Deserted (t : State T α) : Prop where
  invariant : Invariant t
  ready : Ready t
  idle : ∀ u, (t.workQueue.pc (some u)).isIdle = true
  stopped : t.stopped = true

theorem Deserted.step (h : Deserted t) (hstep : Alone t l t') : Deserted t' := by
  obtain ⟨hl, hnext⟩ := hstep
  have hnext : t.step l = .ok t' := hnext
  refine ⟨h.invariant.step (effect_of_step hnext), h.ready.step h.invariant hnext,
    Lifetime.idle_of_step hnext h.idle ?_, (Lifetime.step_keeps hnext).1 h.stopped⟩
  rintro u item rfl
  cases hl

theorem Deserted.reachable (h : Deserted t) (hreach : Reachable Alone t t') : Deserted t' :=
  hreach.invariant (fun _ _ _ h hstep => h.step hstep) h

def inQueueCall : Phase α → Bool
  | .dequeuing _ | .posting _ _ | .draining _ => true
  | _ => false

def Waiting (t : State T α) : Prop :=
  (∃ x, t.workQueue.pc none = .enqueueWait x) ∧ t.workQueue.enqueueSem = 0

omit [Fintype T] in
theorem reachable_of_step (hl : byThread l = true) (h : t.step l = .ok t') :
    Reachable Alone t t' :=
  (Reachable.refl t).snoc ⟨hl, h⟩

omit [Fintype T] in
theorem step_run_of_call {q : SharedQueue.State (Option T) α} (hphase : inQueueCall t.phase = true)
    (hbusy : (t.workQueue.pc none).isIdle = false) (hq : t.workQueue.advance none = .ok q) :
    t.step .run = .ok { t with workQueue := q } := by
  have hcontinue : t.continueCall = .ok { t with workQueue := q } := by
    simp [State.continueCall, SharedQueue.State.step, hq, Except.map]
  have hidle : ∀ r, t.workQueue.pc none ≠ .idle r := by
    intro r hpc
    rw [hpc] at hbusy
    cases hbusy
  cases hp : t.phase with
  | dequeuing events =>
      rw [hp] at hcontinue
      simp only [State.step, State.advance, hp]
      split
      · rename_i hpc
        exact absurd hpc (hidle _)
      · rename_i hpc
        exact absurd hpc (hidle _)
      · exact hcontinue
  | posting item caller =>
      rw [hp] at hcontinue
      cases hpc : t.workQueue.pc none with
      | idle r => exact absurd hpc (hidle r)
      | _ =>
          simp only [State.step, State.advance, hp, hpc]
          exact hcontinue
  | draining count =>
      rw [hp] at hcontinue
      simp only [State.step, State.advance, hp]
      split
      · rename_i hpc
        exact absurd hpc (hidle _)
      · rename_i hpc
        exact absurd hpc (hidle _)
      · rename_i hpc
        exact absurd hpc (hidle _)
      · exact hcontinue
  | _ =>
      rw [hp] at hphase
      cases hphase

omit [Fintype T] in
theorem length_of_dequeues {q q' : SharedQueue.State (Option T) α}
    (h : (q.pc none).dequeues = true) (hstep : q.advance none = .ok q') :
    (q'.pc none).dequeues = true ∧
      q'.list.length + (q'.pc none).taken.length = q.list.length + (q.pc none).taken.length := by
  obtain ⟨hdequeues, -, hcases⟩ := SharedQueue.advance_dequeues h hstep
  refine ⟨hdequeues, ?_⟩
  rcases hcases with ⟨front, rest, hlist, hlist', -, htaken, htaken'⟩ |
    ⟨hlist, -, htaken, -, -, hpc⟩ | ⟨hlist, -, htaken, -⟩
  · simp [hlist, hlist', htaken, htaken']
  · rw [hlist, htaken, hpc]
    rfl
  · rw [hlist, htaken]

theorem call_completes (h : Deserted t) (hphase : inQueueCall t.phase = true)
    (hfree : ¬ Waiting t) :
    ∃ t', Reachable Alone t t' ∧ t'.phase = t.phase ∧ (t'.workQueue.pc none).isIdle = true ∧
      ((t.workQueue.pc none).dequeues = true →
        t'.workQueue.list.length + (t'.workQueue.pc none).taken.length =
          t.workQueue.list.length + (t.workQueue.pc none).taken.length) := by
  induction hleft : callLeft (t.workQueue.pc none) using Nat.strong_induction_on generalizing t with
  | _ n ih =>
      by_cases hidle : (t.workQueue.pc none).isIdle = true
      · exact ⟨t, .refl t, rfl, hidle, fun _ => rfl⟩
      · have hbusy := Bool.eq_false_iff.mpr hidle
        have hworker := h.invariant.worker
        have hcall : (t.workQueue.pc none).enqueues = true ∨
            (t.workQueue.pc none).dequeues = true := by
          cases hp : t.phase with
          | dequeuing events => rw [hp] at hworker; exact .inr hworker
          | posting item caller => rw [hp] at hworker; exact .inl hworker
          | draining count => rw [hp] at hworker; exact .inr hworker
          | _ =>
              rw [hp] at hphase
              cases hphase
        have htoken : t.workQueue.pc none = .dequeueWait → t.workQueue.dequeueSem ≠ 0 := by
          intro hpc
          cases hp : t.phase with
          | dequeuing events => exact (h.ready.dequeuing events hp).2 hpc
          | posting item caller =>
              rw [hp, hpc] at hworker
              cases hworker
          | draining count =>
              have htakes := h.ready.draining count hp
              rw [hpc] at htakes
              cases htakes
          | _ =>
              rw [hp] at hphase
              cases hphase
        obtain ⟨q, hq, hless, hnot⟩ := exists_advance h.invariant.queue h.idle hcall hbusy
          (fun x hpc hzero => hfree ⟨⟨x, hpc⟩, hzero⟩) htoken
        have hstep := step_run_of_call hphase hbusy hq
        have hnext : Deserted { t with workQueue := q } := h.step ⟨rfl, hstep⟩
        obtain ⟨t', hreach, hphase', hidle', hlength⟩ := ih _ (hleft ▸ hless) hnext hphase
          (fun hwaiting => hwaiting.1.elim hnot) rfl
        refine ⟨t', (reachable_of_step rfl hstep).trans hreach, hphase', hidle', fun hdequeues => ?_⟩
        obtain ⟨hdequeues', hsame⟩ := length_of_dequeues hdequeues hq
        exact (hlength hdequeues').trans hsame

end Thread

end Osi
