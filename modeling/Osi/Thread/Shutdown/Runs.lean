import Osi.Thread.Shutdown.Posts

/-!
# Shutting a thread down

In every run the items are executed in the order in which they came into the queue; the
last loop executes at most one item more than the capacity, and if all posts of clients
were complete before the stop, it leaves none.
-/

namespace Osi

namespace Thread

open Transition
open SharedQueue (Fault Pc)

variable {T α : Type*} [DecidableEq T] [DecidableEq α] {s s' : State T α} [Fintype T]

structure Sound (capacity : UInt64) (s : State T α) : Prop where
  capacity_eq : s.capacity = capacity
  invariant : Invariant s
  remaining : Remaining s
  counts : s.capacity.toNat + 1 < 2 ^ 64 → s.phase.Counts s.capacity.toNat s.drained

omit [DecidableEq T] [DecidableEq α] in
theorem sound_threadNewSized (capacity : UInt64) :
    Sound capacity (threadNewSized capacity : State T α) where
  capacity_eq := rfl
  invariant := invariant_threadNewSized capacity
  remaining := ⟨fun _ => rfl, nofun⟩
  counts _ := rfl

omit [Fintype T] in
theorem capacity_of_effect {l : Label T α} (h : Effect s l s') : s'.capacity = s.capacity := by
  cases h <;> rfl

theorem Sound.step {capacity : UInt64} {l : Label T α} (hsound : Sound capacity s)
    (h : Effect s l s') : Sound capacity s' where
  capacity_eq := (capacity_of_effect h).trans hsound.capacity_eq
  invariant := hsound.invariant.step h
  remaining := hsound.remaining.step hsound.invariant h
  counts hcapacity := by
    rw [capacity_of_effect h] at hcapacity
    exact counts_step hcapacity (hsound.counts hcapacity) h

theorem Quiet.step {capacity : UInt64} {l : Label T α} (hsound : Sound capacity s)
    (hquiet : Quiet s) (hguard : PostsBeforeStop s l) (h : Effect s l s') : Quiet s' where
  idle := hquiet.idle_step hguard h
  stopped := hquiet.stopped_step h
  done := hquiet.done_step hsound.invariant hsound.remaining hsound.counts h

theorem sound_of_reachable {capacity : UInt64}
    (h : Reachable (Next State.step) (threadNewSized capacity) s) : Sound capacity s :=
  h.invariant (fun _ _ _ hsound hstep => hsound.step (effect_of_step hstep))
    (sound_threadNewSized capacity)

theorem quiet_of_reachable {capacity : UInt64}
    (h : Reachable (Guarded PostsBeforeStop (Next State.step)) (threadNewSized capacity) s) :
    Sound capacity s ∧ Quiet s := by
  refine h.invariant (I := fun s => Sound capacity s ∧ Quiet s) ?_
    ⟨sound_threadNewSized capacity, fun _ _ => rfl, fun h => by cases h <;> contradiction, nofun⟩
  rintro s l s' ⟨hsound, hquiet⟩ ⟨hguard, hstep⟩
  have heffect := effect_of_step hstep
  exact ⟨hsound.step heffect, hquiet.step hsound hguard heffect⟩

def State.current (s : State T α) : Option α :=
  match s.phase with
  | .executing item _ => some item
  | .posting item _ => some item
  | _ => none

omit [DecidableEq T] [DecidableEq α] [Fintype T] in
theorem State.current_prefix (s : State T α) : s.current.toList <+: s.inHand := by
  unfold State.current State.inHand
  cases s.phase <;> first | exact List.prefix_rfl | exact List.nil_prefix

omit [DecidableEq T] [DecidableEq α] in
theorem Invariant.finished_prefix (hinv : Invariant s) :
    s.finished ++ s.current.toList <+: s.workQueue.appended := by
  rw [hinv.fifo, hinv.removed]
  exact ((List.prefix_append_right_inj _).mpr s.current_prefix).trans (List.prefix_append _ _)

/-- For every capacity and every run: the items are executed one at a time in the order
in which they came to the queue, and the last loop executes at most one more than the
capacity. If the clients post before the stop, everything that was in the queue when
`reactor_start` returned has been executed when `run_thread` returns. -/
theorem thread_shutdown (capacity : UInt64) :
    (∀ s : State T α, Reachable (Next State.step) (threadNewSized capacity) s →
      s.finished ++ s.current.toList <+: s.workQueue.appended ∧
      (capacity.toNat < 2 ^ 64 - 1 → s.drained ≤ capacity.toNat + 1)) ∧
    ∀ s : State T α,
      Reachable (Guarded PostsBeforeStop (Next State.step)) (threadNewSized capacity) s →
      ∀ item, s.phase = .returned item →
        ∃ before items, s.atReturn = some (before, items) ∧ before ++ items <+: s.finished := by
  refine ⟨fun s hreach => ?_, fun s hreach item hphase => ?_⟩
  · have hsound := sound_of_reachable hreach
    refine ⟨hsound.invariant.finished_prefix, fun hcapacity => ?_⟩
    rw [← hsound.capacity_eq] at hcapacity ⊢
    exact (hsound.counts (Nat.add_lt_of_lt_sub hcapacity)).le
  · obtain ⟨hsound, hquiet⟩ := quiet_of_reachable hreach
    obtain ⟨before, items, hat, -, hinitial, -⟩ := hsound.remaining.loop (by rw [hphase]; rfl)
    have hlength := hquiet.done (by rw [hphase]; trivial) before items hat
    rw [← List.length_append] at hlength
    refine ⟨before, items, hat, List.prefix_of_prefix_length_le hinitial ?_ hlength⟩
    exact (List.prefix_append _ _).trans hsound.invariant.finished_prefix

/-- A client posts two items and stops the thread; each of them posts another one
while the queue is drained. -/
def postWhileDraining : List (Label Unit ℕ) :=
  List.flatten [[.post () 1], .replicate 5 (.client ()), [.post () 2], .replicate 5 (.client ()),
    [.stop (), .wait [.stop], .run], .replicate 6 .run, [.itemPosts 3], .replicate 6 .run,
    [.itemReturns], .replicate 6 .run, [.itemPosts 4], .replicate 6 .run, [.itemReturns],
    .replicate 6 .run, [.itemReturns], .replicate 6 .run]

theorem thread_shutdown_postWhileDraining :
    ∃ s : State Unit ℕ, s.phase = .returned (some 4) ∧ s.drained = 3 ∧ s.drained ≤ 2 + 1 ∧
      s.finished <+: s.workQueue.appended ∧
      ∃ before items, s.atReturn = some (before, items) ∧ before ++ items <+: s.finished := by
  have hend : ((exec (fun s l => decide (PostsBeforeStop s l)) State.step (threadNewSized 2)
      postWhileDraining).any fun s =>
        decide (s.phase = .returned (some 4) ∧ s.drained = 3)) = true := by
    decide +kernel
  obtain ⟨s, hs, hend⟩ := (Option.any_eq_true _ _).mp hend
  obtain ⟨hphase, hdrained⟩ := of_decide_eq_true hend
  have hrun := Run.of_exec hs
  obtain ⟨hall, hreturned⟩ := thread_shutdown (T := Unit) (α := ℕ) 2
  obtain ⟨hinitial, hbound⟩ := hall s ⟨_, hrun.mono fun _ _ _ hstep => hstep.2⟩
  exact ⟨s, hphase, hdrained, hbound (by decide), (List.prefix_append _ _).trans hinitial,
    hreturned s ⟨_, hrun⟩ _ hphase⟩

end Thread

end Osi
