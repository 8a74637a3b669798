import Osi.Thread.Lifetime.SelfJoin

/-!
# What the thread knows of its queue

A call of `fixed_queue_try_dequeue` may return `NULL`, one of `fixed_queue_dequeue` does
not, and the thread makes the second only where the reactor has reported an element.
-/

namespace Osi

namespace Thread

open Transition
open SharedQueue (Pc)

variable {T α : Type*}

/-! ### What the thread knows of its queue -/

/-- The points of `fixed_queue_dequeue`, if `waits`, or of `fixed_queue_try_dequeue`, which
alone may return `NULL`. -/
def takes (waits : Bool) : Pc α → Bool
  | .dequeueWait => waits
  | .dequeueTryWait | .idle (.data none) => !waits
  | .dequeueLock | .dequeueRemove | .dequeueUnlock _ | .dequeuePost _ => true
  | .idle (.data (some _)) => true
  | _ => false

structure Ready (t : State T α) : Prop where
  nodup : t.phase.events.Nodup
  token : ∀ events, t.phase = .reactor events → .workQueue ∈ events →
    t.workQueue.dequeueSem ≠ 0
  served : .workQueue ∈ t.phase.events → ∃ events, t.phase = .reactor events
  dequeuing : ∀ events, t.phase = .dequeuing events →
    takes true (t.workQueue.pc none) = true ∧
      (t.workQueue.pc none = .dequeueWait → t.workQueue.dequeueSem ≠ 0)
  draining : ∀ count, t.phase = .draining count → takes false (t.workQueue.pc none) = true

theorem given_of_takes {waits : Bool} {pc : Pc α} (hidle : pc.isIdle = true)
    (htakes : takes waits pc = true) :
    (waits = false ∧ pc = .idle (.data none)) ∨ ∃ item, pc = .idle (.data (some item)) := by
  cases pc with
  | idle r =>
      cases r with
      | data item =>
          cases item with
          | none => exact .inl ⟨by simpa [takes] using htakes, rfl⟩
          | some item => exact .inr ⟨item, rfl⟩
      | _ => cases htakes
  | _ => cases hidle

variable [DecidableEq T] [DecidableEq α]

theorem takes_advance {q q' : SharedQueue.State (Option T) α} {t : Option T} {waits : Bool}
    (h : takes waits (q.pc t) = true) (hstep : q.advance t = .ok q') :
    takes waits (q'.pc t) = true ∧ q'.pc t ≠ .dequeueWait := by
  cases hpc : q.pc t with
  | idle r => simp [SharedQueue.State.advance, hpc] at hstep
  | dequeueWait =>
      simp only [SharedQueue.State.advance, hpc] at hstep
      split_ifs at hstep
      cases hstep
      rw [SharedQueue.goto_pc_self]
      exact ⟨rfl, by simp⟩
  | dequeueTryWait =>
      rw [hpc] at h
      simp only [SharedQueue.State.advance, hpc] at hstep
      split_ifs at hstep <;> cases hstep <;> rw [SharedQueue.goto_pc_self]
      · exact ⟨h, by simp⟩
      · exact ⟨rfl, by simp⟩
  | dequeueLock =>
      simp only [SharedQueue.State.advance, hpc] at hstep
      rw [(SharedQueue.pc_of_acquire hstep).1]
      exact ⟨rfl, by simp⟩
  | dequeueRemove =>
      simp only [SharedQueue.State.advance, hpc] at hstep
      split at hstep
      · cases hstep
      · cases hstep
        rw [SharedQueue.goto_pc_self]
        exact ⟨rfl, by simp⟩
  | dequeueUnlock x =>
      simp only [SharedQueue.State.advance, hpc] at hstep
      cases hstep
      rw [SharedQueue.release_pc_self]
      exact ⟨rfl, by simp⟩
  | dequeuePost x =>
      simp only [SharedQueue.State.advance, hpc] at hstep
      cases hstep
      rw [SharedQueue.goto_pc_self]
      exact ⟨rfl, by simp⟩
  | _ =>
      rw [hpc] at h
      cases h

theorem dequeueSem_le {q q' : SharedQueue.State (Option T) α} {t : Option T}
    (h : (q.pc t).enqueues = true) (hstep : q.advance t = .ok q') :
    q.dequeueSem ≤ q'.dequeueSem := by
  cases hpc : q.pc t with
  | idle r => simp [SharedQueue.State.advance, hpc] at hstep
  | enqueueWait x =>
      simp only [SharedQueue.State.advance, hpc] at hstep
      split_ifs at hstep
      cases hstep
      exact Nat.le_refl _
  | enqueueLock x r =>
      simp only [SharedQueue.State.advance, hpc] at hstep
      exact (SharedQueue.pc_of_acquire hstep).2.2.2.2.ge
  | enqueueAppend x r =>
      simp only [SharedQueue.State.advance, hpc] at hstep
      cases hstep
      exact Nat.le_refl _
  | enqueueUnlock r =>
      simp only [SharedQueue.State.advance, hpc] at hstep
      cases hstep
      exact Nat.le_refl _
  | enqueuePost r =>
      simp only [SharedQueue.State.advance, hpc] at hstep
      cases hstep
      exact Nat.le_succ _
  | _ =>
      rw [hpc] at h
      cases h

variable {t t' : State T α} {l : Label T α}

omit [DecidableEq T] [DecidableEq α] in
theorem Ready.of_events (hevents : t.phase.events.Nodup)
    (hqueue : .workQueue ∉ t.phase.events) (hdequeuing : ∀ events, t.phase ≠ .dequeuing events)
    (hdraining : ∀ count, t.phase ≠ .draining count) : Ready t := by
  refine ⟨hevents, fun events hphase hmem => ?_, fun hmem => absurd hmem hqueue,
    fun events hphase => absurd hphase (hdequeuing events),
    fun count hphase => absurd hphase (hdraining count)⟩
  rw [hphase] at hqueue
  exact absurd hmem hqueue

omit [DecidableEq T] [DecidableEq α] in
theorem Ready.of_draining {count : UInt64} (hphase : t.phase = .draining count)
    (htakes : takes false (t.workQueue.pc none) = true) : Ready t := by
  refine ⟨?_, fun events h => ?_, fun hmem => ?_, fun events h => ?_, fun _ _ => htakes⟩
  · rw [hphase]
    exact List.nodup_nil
  · rw [hphase] at h
    cases h
  · rw [hphase] at hmem
    cases hmem
  · rw [hphase] at h
    cases h

omit [DecidableEq T] [DecidableEq α] in
/-- Somebody else does something with the queue. -/
theorem Ready.other (hready : Ready t) {q : SharedQueue.State (Option T) α}
    (hpc : q.pc none = t.workQueue.pc none) (hsem : t.workQueue.dequeueSem ≤ q.dequeueSem) :
    Ready { t with workQueue := q } := by
  refine ⟨hready.nodup, fun events hphase hmem => ?_, hready.served, fun events hphase => ?_,
    fun count hphase => ?_⟩
  · have htoken := hready.token events hphase hmem
    change q.dequeueSem ≠ 0
    omega
  · obtain ⟨htakes, hwait⟩ := hready.dequeuing events hphase
    change takes true (q.pc none) = true ∧ (q.pc none = .dequeueWait → q.dequeueSem ≠ 0)
    rw [hpc]
    refine ⟨htakes, fun h => ?_⟩
    have htoken := hwait h
    omega
  · change takes false (q.pc none) = true
    rw [hpc]
    exact hready.draining count hphase

theorem Ready.continued (hready : Ready t) (hphase : ∀ events, t.phase ≠ .reactor events)
    {q : SharedQueue.State (Option T) α} (hstep : t.workQueue.advance none = .ok q) :
    Ready { t with workQueue := q } := by
  refine ⟨hready.nodup, fun events h => absurd h (hphase events), hready.served,
    fun events h => ?_, fun count h => ?_⟩
  · obtain ⟨htakes, hwait⟩ := takes_advance (hready.dequeuing events h).1 hstep
    exact ⟨htakes, fun h => absurd h hwait⟩
  · exact (takes_advance (hready.draining count h) hstep).1

omit [DecidableEq T] [DecidableEq α] in
/-- In a callback the work queue is not among the events to come. -/
theorem Ready.not_mem (hready : Ready t) (hphase : ∀ events, t.phase ≠ .reactor events) :
    .workQueue ∉ t.phase.events := by
  intro hmem
  obtain ⟨events, h⟩ := hready.served hmem
  exact hphase events h

theorem Ready.advance (hready : Ready t) (h : t.advance = .ok t') : Ready t' := by
  have hnodup := hready.nodup
  unfold State.advance at h
  split at h
  · cases h
  · rename_i events hphase
    rw [hphase] at hnodup
    obtain ⟨hnot, hnodup⟩ := List.nodup_cons.mp hnodup
    rw [State.call_eq h]
    refine ⟨hnodup, fun _ h => ?_, fun hmem => absurd hmem hnot, fun _ _ => ?_, fun _ h => ?_⟩
    · cases h
    · rw [SharedQueue.goto_pc_self]
      exact ⟨rfl, fun _ => hready.token _ hphase List.mem_cons_self⟩
    · cases h
  · rw [State.call_eq h]
    refine .of_draining rfl ?_
    rw [SharedQueue.goto_pc_self]
    rfl
  · rename_i events hphase
    have hnot := hready.not_mem (by simp [hphase])
    rw [hphase] at hnodup hnot
    split at h
    · cases h
      exact .of_events hnodup hnot (by simp) (by simp)
    · cases h
    · obtain ⟨q, hq, rfl⟩ := map_eq_ok h
      exact hready.continued (by simp [hphase]) hq
  · rename_i item caller hphase
    have hnot := hready.not_mem (by simp [hphase])
    rw [hphase] at hnodup hnot
    split at h
    · cases h
      exact .of_events hnodup hnot (by simp) (by simp)
    · obtain ⟨q, hq, rfl⟩ := map_eq_ok h
      exact hready.continued (by simp [hphase]) hq
  · rename_i count hphase
    split at h
    · split_ifs at h
      · cases h
        exact .of_events List.nodup_nil List.not_mem_nil (by simp) (by simp)
      · cases h
        exact .of_events List.nodup_nil List.not_mem_nil (by simp) (by simp)
    · cases h
      exact .of_events List.nodup_nil List.not_mem_nil (by simp) (by simp)
    · cases h
    · obtain ⟨q, hq, rfl⟩ := map_eq_ok h
      exact hready.continued (by simp [hphase]) hq
  · cases h
  · cases h

variable [Fintype T]

theorem Ready.step (hready : Ready t) (hinv : Invariant t) (h : t.step l = .ok t') :
    Ready t' := by
  have hsame : ∀ stopped, Ready { t with stopped := stopped } := fun _ =>
    ⟨hready.nodup, hready.token, hready.served, hready.dequeuing, hready.draining⟩
  cases l with
  | post u item =>
      obtain ⟨q, hq, rfl⟩ := map_eq_ok h
      obtain ⟨-, rfl⟩ := SharedQueue.step_call hq
      exact hready.other (SharedQueue.goto_pc_of_ne _ (Option.some_ne_none u).symm _)
        (Nat.le_refl _)
  | client u =>
      obtain ⟨q, hq, rfl⟩ := map_eq_ok h
      exact hready.other (SharedQueue.advance_pc_of_ne hq (Option.some_ne_none u).symm)
        (dequeueSem_le (hinv.clients u) hq)
  | stop u =>
      simp only [State.step] at h
      split at h
      · cases h
        exact hsame true
      · cases h
  | wait events =>
      simp only [State.step] at h
      split at h
      · split_ifs at h with hevents
        cases h
        refine ⟨hevents.2.1, fun es hes hmem => ?_, fun _ => ⟨events, rfl⟩, fun _ h => ?_,
          fun _ h => ?_⟩
        · cases hes
          simpa [State.ready] using hevents.2.2 _ hmem
        · cases h
        · cases h
      · cases h
  | run => exact hready.advance h
  | itemPosts item =>
      simp only [State.step] at h
      split at h
      · rename_i current caller hphase
        have hnodup := hready.nodup
        have hnot := hready.not_mem (by simp [hphase])
        rw [hphase] at hnodup hnot
        rw [State.call_eq h]
        exact .of_events hnodup hnot (by simp) (by simp)
      · cases h
  | itemStops =>
      simp only [State.step] at h
      split at h
      · cases h
        exact hsame true
      · cases h
  | itemReturns =>
      simp only [State.step] at h
      split at h
      · rename_i item events hphase
        have hnodup := hready.nodup
        have hnot := hready.not_mem (by simp [hphase])
        rw [hphase] at hnodup hnot
        cases h
        exact .of_events hnodup hnot (by simp) (by simp)
      · rename_i item count hphase
        rw [State.call_eq h]
        refine .of_draining rfl ?_
        rw [SharedQueue.goto_pc_self]
        rfl
      · cases h

omit [DecidableEq T] [DecidableEq α] [Fintype T] in
theorem ready_threadNewSized (capacity : UInt64) :
    Ready (threadNewSized capacity : State T α) :=
  .of_events List.nodup_nil List.not_mem_nil (by simp [threadNewSized])
    (by simp [threadNewSized])

end Thread

end Osi
