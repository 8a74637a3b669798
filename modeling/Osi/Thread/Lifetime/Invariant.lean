import Osi.Thread.Lifetime.Steps

/-!
# Who may use the parts of a thread

The invariant relates the point that the caller has reached to what `run_thread` has done
by then: while the thread runs, everything that it uses is there.
-/

namespace Osi

namespace Thread

namespace Lifetime

open Transition

variable {T α : Type*} [DecidableEq T] [DecidableEq α] {s s' : State T α} {l : Label T α}

/-- What is not released yet. -/
def Owner.alive : Owner → Object → Bool
  | create, _ | wait, _ | freeSem, _ => true
  | checkError, o => o != .startSem
  | holding, o | stop, o | readJoined _, o | joining _, o => o != .startSem && o != .start
  | freeQueue error, o => o != .startSem && (error || o != .start)
  | freeReactor error, o => o != .startSem && (error || o != .start) && o != .workQueue
  | freeThread error, o => o == .thread || error && o == .start
  | returned _, _ => false

def Worker.hasPosted : Worker → Bool
  | failed | running => true
  | _ => false

/-- What the owner and the new thread know of each other. -/
def Owner.Meets (worker : Worker) (count : ℕ) : Owner → Prop
  | create => worker = .absent ∧ count = 0
  | wait => count = if worker.hasPosted then 1 else 0
  | freeSem | checkError => worker.hasPosted = true
  | freeQueue true | freeReactor true | freeThread true | returned true => worker = .failed
  | _ => worker = .running

def Owner.isPastJoin : Owner → Bool
  | freeQueue false | freeReactor false | freeThread false | returned false => true
  | _ => false

def Worker.hasError : Worker → Bool
  | postError | failed => true
  | _ => false

variable [Fintype T]

structure Invariant (s : State T α) : Prop where
  thread : Thread.Invariant s.thread
  alive : ∀ o, s.alive o = s.owner.alive o
  meets : s.owner.Meets s.worker s.startCount
  error : s.error = s.worker.hasError
  idle : s.owner.freeing = true → ∀ t, (s.thread.workQueue.pc (some t)).isIdle = true
  stopped : s.owner.freeing = true → s.owner ≠ .stop → s.thread.stopped = true
  item : s.busy = true → executing s.thread.phase = true
  joined : s.selfJoined = false → s.isJoined = true →
    (∀ freeing, s.owner ≠ .joining freeing) → s.thread.phase.hasReturned = true
  past : s.owner.isPastJoin = true → s.isJoined = true
  selfJoined : s.selfJoined = true → s.isJoined = true
  joining : ∀ freeing, s.owner = .joining freeing →
    s.isJoined = true ∧ s.selfJoined = s.inItem

omit [DecidableEq T] [DecidableEq α] in
theorem invariant_start (capacity : UInt64) : Invariant (start capacity : State T α) where
  thread := invariant_threadNewSized capacity
  alive _ := rfl
  meets := ⟨rfl, rfl⟩
  error := rfl
  idle h := by cases h
  stopped h := by cases h
  item h := by cases h
  joined _ h := by cases h
  past h := by cases h
  selfJoined h := by cases h
  joining _ h := by cases h

/-- Between its creation and its `semaphore_post` the new thread is waited for. -/
theorem Owner.Meets.wait {worker : Worker} {count : ℕ} {owner : Owner}
    (h : owner.Meets worker count) (hposted : worker.hasPosted = false)
    (habsent : worker ≠ .absent) : owner = .wait ∧ count = 0 := by
  have hrunning : worker ≠ .running := by
    rintro rfl
    cases hposted
  have hfailed : worker ≠ .failed := by
    rintro rfl
    cases hposted
  cases owner with
  | create => exact absurd h.1 habsent
  | wait =>
      refine ⟨rfl, ?_⟩
      rw [Owner.Meets, hposted] at h
      exact h
  | freeSem =>
      rw [Owner.Meets, hposted] at h
      cases h
  | checkError =>
      rw [Owner.Meets, hposted] at h
      cases h
  | freeQueue error => cases error <;> contradiction
  | freeReactor error => cases error <;> contradiction
  | freeThread error => cases error <;> contradiction
  | returned error => cases error <;> contradiction
  | _ => exact absurd h hrunning

omit [Fintype T] in
theorem step_keeps {t t' : Thread.State T α} {l : Thread.Label T α} (h : t.step l = .ok t') :
    (t.stopped = true → t'.stopped = true) ∧
      (executing t.phase = true → byItem l = false → t'.phase = t.phase) := by
  constructor
  · intro hstopped
    cases Thread.effect_of_step h with
    | stop => rfl
    | _ => exact hstopped
  · intro hexecuting hitem
    cases hphase : t.phase with
    | executing item caller =>
        cases l with
        | post u item =>
            obtain ⟨q, -, rfl⟩ := map_eq_ok h
            exact hphase
        | client u =>
            obtain ⟨q, -, rfl⟩ := map_eq_ok h
            exact hphase
        | stop u =>
            simp only [Thread.State.step] at h
            split at h
            · cases h
              exact hphase
            · cases h
        | wait events => simp [Thread.State.step, hphase] at h
        | run => simp [Thread.State.step, Thread.State.advance, hphase] at h
        | _ => cases hitem
    | _ =>
        rw [hphase] at hexecuting
        cases hexecuting

omit [Fintype T] in
theorem idle_of_step {t t' : Thread.State T α} {l : Thread.Label T α} (h : t.step l = .ok t')
    (hidle : ∀ u, (t.workQueue.pc (some u)).isIdle = true) (hpost : ∀ u item, l ≠ .post u item)
    (u : T) : (t'.workQueue.pc (some u)).isIdle = true := by
  have hworker : ∀ v, ((t.workQueue.goto none v).pc (some u)).isIdle = true := by
    intro v
    rw [SharedQueue.goto_pc_of_ne _ (Option.some_ne_none u)]
    exact hidle u
  have heffect := Thread.effect_of_step h
  clear h
  cases heffect with
  | client w h =>
      rcases h with ⟨item, rfl, -⟩ | hrun
      · exact absurd rfl (hpost w item)
      · have hidle := hidle w
        cases hpc : t.workQueue.pc (some w) with
        | idle r => simp [SharedQueue.State.step, SharedQueue.State.advance, hpc] at hrun
        | _ =>
          rw [hpc] at hidle
          cases hidle
  | enqueue _ h =>
      rw [SharedQueue.advance_pc_of_ne h (Option.some_ne_none u)]
      exact hidle u
  | dequeue _ h =>
      rw [SharedQueue.advance_pc_of_ne h (Option.some_ne_none u)]
      exact hidle u
  | callback _ => exact hworker _
  | returnFromReactor _ => exact hworker _
  | itemPosts _ => exact hworker _
  | itemReturnsDrain _ => exact hworker _
  | _ => exact hidle u

theorem Owner.isOpen_of_freeing {owner : Owner} (h : owner.freeing = true) :
    owner.isOpen = false := by
  cases owner with
  | readJoined freeing => cases freeing <;> first | rfl | cases h
  | joining freeing => cases freeing <;> first | rfl | cases h
  | holding => cases h
  | _ => rfl

end Lifetime

end Thread

end Osi
