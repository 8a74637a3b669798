import Osi.Thread.Join

/-!
# What becomes of the work items

An item that the thread takes from its queue is executed and then freed, by
`work_queue_read_cb` or by the last loop of `run_thread`, and what is left in the queue is
freed by `thread_free`. The last loop takes the next item before it tests its counter. An
item that it has taken when the counter is above the capacity is neither executed nor
freed, and that is the only way to lose one.
-/

namespace Osi

namespace Thread

open Transition

variable {T α : Type*}

def Phase.dropped : Phase α → Option α
  | .returned item => item
  | _ => none

namespace State

def executed (s : State T α) : List α := s.finished ++ s.current.toList

/-- The items that `run_thread` freed: `osi_free` follows the return of the function. -/
def freed (s : State T α) : List α := s.finished

/-- The items that `thread_free` frees: `fixed_queue_free` calls `osi_free` for all that is
in the queue. -/
def threadFree (s : State T α) : List α := s.workQueue.list.map SharedQueue.Node.data

/-- Every item that was taken from the queue is executed once and freed once, in that
order, as far as `run_thread` has come; when it has returned nothing is left over, and
`thread_free` frees the items that were never taken. -/
structure Handled (s : State T α) : Prop where
  executed : s.executed <+: s.workQueue.removed
  freed : s.freed <+: s.executed
  returned : s.phase.hasReturned = true →
    s.workQueue.removed = s.executed ∧ s.executed = s.freed ∧
      s.workQueue.appended = s.freed ++ s.threadFree

/-- The last loop is about to test its counter, which is above the capacity, and has taken
an item. -/
def overdrawn (s : State T α) : Bool :=
  match s.phase, s.workQueue.pc none with
  | .draining count, .idle (.data (some _)) => ¬ count ≤ s.capacity
  | _, _ => false

/-- The step is not the test of a counter above the capacity with an item taken. -/
def Finishes (s : State T α) (l : Label T α) : Prop := l = .run → s.overdrawn = false

end State

variable [DecidableEq T] [DecidableEq α] {s s' : State T α}

instance (s : State T α) (l : Label T α) : Decidable (s.Finishes l) :=
  inferInstanceAs (Decidable (l = .run → s.overdrawn = false))

/-! ### One step -/

theorem phase_of_call {op : SharedQueue.Op α} {phase : Phase α} (h : s.call op phase = .ok s') :
    s'.phase = phase := by
  rw [State.call_eq h]

theorem phase_of_continueCall (h : s.continueCall = .ok s') : s'.phase = s.phase := by
  obtain ⟨q, -, rfl⟩ := map_eq_ok h
  rfl

/-- The thread loses an item exactly at the test of its last loop. -/
theorem dropped_of_advance (h : s.advance = .ok s') :
    s'.phase.dropped = none ↔ s.phase.dropped = none ∧ s.Finishes .run := by
  unfold State.advance at h
  unfold State.Finishes State.overdrawn
  split at h
  · cases h
  · rename_i events hphase
    rw [phase_of_call h, hphase]
    simp [Phase.dropped]
  · rename_i events hphase
    rw [phase_of_call h, hphase]
    simp [Phase.dropped]
  · rename_i events hphase
    split at h
    · cases h
      simp [Phase.dropped, hphase]
    · cases h
    · rw [phase_of_continueCall h, hphase]
      simp [Phase.dropped]
  · rename_i item caller hphase
    split at h
    · cases h
      simp [Phase.dropped, hphase]
    · rw [phase_of_continueCall h, hphase]
      simp [Phase.dropped]
  · rename_i count hphase
    split at h
    · rename_i item hpc
      split_ifs at h with hcount
      · cases h
        simp [Phase.dropped, hphase, hpc, hcount]
      · cases h
        simp [Phase.dropped, hphase, hpc, hcount]
    · rename_i hpc
      cases h
      simp [Phase.dropped, hphase, hpc]
    · cases h
    · rename_i hitem hnone hidle
      rw [phase_of_continueCall h, hphase]
      refine iff_of_true rfl ⟨rfl, fun _ => ?_⟩
      split
      · rename_i count' item hphase' hpc
        exact absurd hpc (hitem item)
      · rfl
  · cases h
  · cases h

theorem dropped_of_step {l : Label T α} (h : s.step l = .ok s') :
    s'.phase.dropped = none ↔ s.phase.dropped = none ∧ s.Finishes l := by
  cases l with
  | run => exact dropped_of_advance h
  | post t item =>
    obtain ⟨q, -, rfl⟩ := map_eq_ok h
    simp [State.Finishes]
  | client t =>
    obtain ⟨q, -, rfl⟩ := map_eq_ok h
    simp [State.Finishes]
  | stop t =>
    simp only [State.step] at h
    split at h
    · cases h
      simp [State.Finishes]
    · cases h
  | wait events =>
    simp only [State.step] at h
    split at h
    · rename_i hphase
      split_ifs at h
      cases h
      simp [State.Finishes, Phase.dropped, hphase]
    · cases h
  | itemPosts item =>
    simp only [State.step] at h
    split at h
    · rename_i current caller hphase
      rw [phase_of_call h, hphase]
      simp [State.Finishes, Phase.dropped]
    · cases h
  | itemStops =>
    simp only [State.step] at h
    split at h
    · cases h
      simp [State.Finishes]
    · cases h
  | itemReturns =>
    simp only [State.step] at h
    split at h
    · rename_i item events hphase
      cases h
      simp [State.Finishes, Phase.dropped, hphase]
    · rename_i item count hphase
      rw [phase_of_call h, hphase]
      simp [State.Finishes, Phase.dropped]
    · cases h

/-! ### Runs -/

variable [Fintype T]

omit [DecidableEq T] [DecidableEq α] in
/-- In a state with the invariant nothing is lost but the item that `run_thread` returned
with. -/
theorem handled_iff (hinv : Invariant s) : s.Handled ↔ s.phase.dropped = none := by
  have hremoved := hinv.removed
  constructor
  · intro hhandled
    cases hphase : s.phase with
    | returned item =>
      obtain ⟨hexecuted, hfreed, -⟩ := hhandled.returned (by rw [hphase]; rfl)
      rw [hexecuted, hfreed, State.freed, State.inHand, hphase] at hremoved
      have hnil : item.toList = [] := List.self_eq_append_right.mp hremoved
      exact Option.toList_eq_nil_iff.mp hnil
    | _ => rfl
  · intro hdropped
    refine ⟨?_, List.prefix_append _ _, fun hreturned => ?_⟩
    · rw [hremoved]
      exact (List.prefix_append_right_inj _).mpr s.current_prefix
    · cases hphase : s.phase with
      | returned item =>
        rw [hphase] at hdropped
        obtain rfl : item = none := hdropped
        have hcurrent : s.executed = s.freed := by
          rw [State.executed, State.current, hphase]
          exact List.append_nil _
        rw [State.inHand, hphase] at hremoved
        have hfreed : s.workQueue.removed = s.freed := hremoved.trans (List.append_nil _)
        refine ⟨hfreed.trans hcurrent.symm, hcurrent, ?_⟩
        rw [← hfreed]
        exact hinv.fifo
      | _ =>
        rw [hphase] at hreturned
        cases hreturned

/-- For every capacity and every run: what was taken from the queue is executed once and
freed once, and what was not is freed by `thread_free`, exactly if no step of the run is the
test of the last loop with an item and a counter above the capacity. -/
theorem thread_items_handled_iff (capacity : UInt64) (ls : List (Label T α)) (s : State T α)
    (h : Run (Next State.step) (threadNewSized capacity) ls s) :
    s.Handled ↔ Run (Guarded State.Finishes (Next State.step)) (threadNewSized capacity) ls s := by
  have hsound : Sound capacity s := sound_of_reachable ⟨ls, h⟩
  rw [handled_iff hsound.invariant]
  exact h.guarded_iff (I := fun _ => True) (P := fun s => s.phase.dropped = none)
    (fun _ _ _ _ _ => trivial) (fun s l s' _ hstep => dropped_of_step hstep) trivial rfl

/-- A client posts two items and stops the thread; the first of them posts another one
while the queue is drained. -/
def postOnceWhileDraining : List (Label Unit ℕ) :=
  List.flatten [[.post () 1], .replicate 5 (.client ()), [.post () 2], .replicate 5 (.client ()),
    [.stop (), .wait [.stop], .run], .replicate 6 .run, [.itemPosts 3], .replicate 6 .run,
    [.itemReturns], .replicate 6 .run, [.itemReturns], .replicate 6 .run, [.itemReturns],
    .replicate 2 .run]

theorem thread_items_handled_postOnceWhileDraining :
    ∃ s : State Unit ℕ, s.phase = .returned none ∧ s.freed = [1, 2, 3] ∧ s.Handled := by
  have hend : ((exec (fun s l => decide (State.Finishes s l)) State.step (threadNewSized 2)
      postOnceWhileDraining).any fun s =>
        decide (s.phase = .returned none ∧ s.freed = [1, 2, 3])) = true := by
    decide +kernel
  obtain ⟨s, hs, hend⟩ := (Option.any_eq_true _ _).mp hend
  obtain ⟨hphase, hfreed⟩ := of_decide_eq_true hend
  have hrun := Run.of_exec hs
  have hhandled := thread_items_handled_iff 2 _ s (hrun.mono fun _ _ _ hstep => hstep.2)
  exact ⟨s, hphase, hfreed, hhandled.mpr hrun⟩

/-- Each of two items posts another one while the queue is drained: the last loop has
executed three and returns with the fourth. -/
theorem thread_items_dropped :
    ∃ s : State Unit ℕ, Reachable (Next State.step) (threadNewSized 2) s ∧
      s.phase = .returned (some 4) ∧ s.workQueue.removed = [1, 2, 3, 4] ∧
      s.executed = [1, 2, 3] ∧ s.freed = [1, 2, 3] ∧ s.threadFree = [] ∧ ¬ s.Handled := by
  have hend : ((exec (fun _ _ => true) State.step (threadNewSized 2) postWhileDraining).any
      fun s => decide (s.phase = .returned (some 4) ∧ s.workQueue.removed = [1, 2, 3, 4] ∧
        s.executed = [1, 2, 3] ∧ s.freed = [1, 2, 3] ∧ s.threadFree = [])) = true := by
    decide +kernel
  obtain ⟨s, hs, hend⟩ := (Option.any_eq_true _ _).mp hend
  obtain ⟨hphase, hremoved, hexecuted, hfreed, hfree⟩ := of_decide_eq_true hend
  refine ⟨s, .of_exec_true hs, hphase, hremoved, hexecuted, hfreed, hfree, fun hhandled => ?_⟩
  obtain ⟨heq, -, -⟩ := hhandled.returned (by rw [hphase]; rfl)
  rw [hremoved, hexecuted] at heq
  exact absurd heq (by decide)

end Thread

end Osi
