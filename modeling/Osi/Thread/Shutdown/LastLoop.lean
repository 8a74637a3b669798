import Osi.Thread.Shutdown.Order

/-!
# The last loop

It executes at most one item more than the capacity, and when `reactor_start` returns, the
queue holds no more items than the capacity.
-/

namespace Osi

namespace Thread

open Transition
open SharedQueue (Fault Pc)

variable {T α : Type*} [DecidableEq T] [DecidableEq α] {s s' : State T α} [Fintype T]

def Caller.Counts (capacity drained : ℕ) : Caller → Prop
  | .callback _ => drained = 0
  | .drain count => count.toNat = drained ∧ drained ≤ capacity

def Phase.Counts (capacity drained : ℕ) : Phase α → Prop
  | .reactor _ => drained = 0
  | .dequeuing _ => drained = 0
  | .executing _ caller => caller.Counts capacity drained
  | .posting _ caller => caller.Counts capacity drained
  | .draining count => count.toNat = drained ∧ drained ≤ capacity + 1
  | .returned _ => drained ≤ capacity + 1

omit [DecidableEq α] in
theorem Phase.Counts.le {capacity drained : ℕ} {phase : Phase α}
    (h : phase.Counts capacity drained) : drained ≤ capacity + 1 := by
  have hcaller : ∀ caller : Caller, caller.Counts capacity drained → drained ≤ capacity + 1 := by
    intro caller hcaller
    cases caller with
    | callback events => exact hcaller.trans_le (Nat.zero_le _)
    | drain count => exact Nat.le_succ_of_le hcaller.2
  cases phase with
  | reactor events => exact h.trans_le (Nat.zero_le _)
  | dequeuing events => exact h.trans_le (Nat.zero_le _)
  | executing item caller => exact hcaller caller h
  | posting item caller => exact hcaller caller h
  | draining count => exact h.2
  | returned item => exact h

omit [Fintype T] in
theorem counts_step {l : Label T α} (hcapacity : s.capacity.toNat + 1 < 2 ^ 64)
    (hcounts : s.phase.Counts s.capacity.toNat s.drained) (h : Effect s l s') :
    s'.phase.Counts s'.capacity.toNat s'.drained := by
  cases h with
  | client t h => exact hcounts
  | stop _ => exact hcounts
  | wait hphase hready =>
    rw [hphase] at hcounts
    exact hcounts
  | enqueue hphase h => exact hcounts
  | dequeue hphase h => exact hcounts
  | callback hphase =>
    rw [hphase] at hcounts
    exact hcounts
  | returnFromReactor hphase =>
    rw [hphase] at hcounts
    exact ⟨hcounts.symm, Nat.le_add_right_of_le (hcounts.trans_le (Nat.zero_le _))⟩
  | execute hphase hpc =>
    rw [hphase] at hcounts
    exact hcounts
  | posted hphase hpc =>
    rw [hphase] at hcounts
    exact hcounts
  | drain hphase hpc hcount =>
    rw [hphase] at hcounts
    refine ⟨hcounts.1, ?_⟩
    rw [← hcounts.1]
    exact UInt64.le_iff_toNat_le.mp hcount
  | giveUp hphase hpc hcount =>
    rw [hphase] at hcounts
    exact hcounts.2
  | empty hphase hpc =>
    rw [hphase] at hcounts
    exact hcounts.2
  | itemPosts hphase =>
    rw [hphase] at hcounts
    exact hcounts
  | itemReturns hphase =>
    rw [hphase] at hcounts
    exact hcounts
  | itemReturnsDrain hphase =>
    rw [hphase] at hcounts
    obtain ⟨hcount, hle⟩ := hcounts
    refine ⟨?_, Nat.add_le_add_right hle 1⟩
    change (_ + 1 : UInt64).toNat = s.drained + 1
    rw [UInt64.toNat_add, hcount, UInt64.toNat_one]
    exact Nat.mod_eq_of_lt (by omega)

def Caller.inLoop : Caller → Bool
  | .callback _ => false
  | .drain _ => true

def Phase.inLoop : Phase α → Bool
  | .reactor _ => false
  | .dequeuing _ => false
  | .executing _ caller => caller.inLoop
  | .posting _ caller => caller.inLoop
  | .draining _ => true
  | .returned _ => true

/-- What was executed and queued when `reactor_start` returned came to the queue
first, and since then the last loop has executed the rest. -/
structure Remaining (s : State T α) : Prop where
  notYet : s.phase.inLoop = false → s.drained = 0
  loop : s.phase.inLoop = true → ∃ before items, s.atReturn = some (before, items) ∧
    s.finished.length = before.length + s.drained ∧
    before ++ items <+: s.workQueue.appended ∧ items.length ≤ s.capacity.toNat

omit [DecidableEq T] [DecidableEq α] [Fintype T] in
theorem Remaining.congr (h : Remaining s) (hphase : s'.phase.inLoop = s.phase.inLoop)
    (hdrained : s'.drained = s.drained) (hatReturn : s'.atReturn = s.atReturn)
    (hfinished : s.phase.inLoop = true → s'.finished = s.finished)
    (happended : s.workQueue.appended <+: s'.workQueue.appended)
    (hcapacity : s'.capacity = s.capacity) : Remaining s' := by
  refine ⟨fun hloop => ?_, fun hloop => ?_⟩
  · rw [hdrained]
    exact h.notYet (hphase ▸ hloop)
  · rw [hphase] at hloop
    obtain ⟨before, items, hat, hlength, hinitial, hle⟩ := h.loop hloop
    refine ⟨before, items, hatReturn.trans hat, ?_, hinitial.trans happended, ?_⟩
    · rw [hfinished hloop, hdrained]
      exact hlength
    · rw [hcapacity]
      exact hle

omit [DecidableEq T] [DecidableEq α] in
/-- The queue holds no more items than its capacity. -/
theorem Invariant.length_le (hinv : Invariant s) :
    s.workQueue.list.length ≤ s.capacity.toNat := by
  have hslots := hinv.queue.slots_eq
  have hmod : semaphoreNew s.capacity.toUInt32 ≤ s.capacity.toNat := by
    rw [semaphoreNew, UInt64.toNat_toUInt32]
    exact Nat.mod_le _ _
  omega

theorem Remaining.step {l : Label T α} (hinv : Invariant s) (hrem : Remaining s)
    (h : Effect s l s') : Remaining s' := by
  have happended := hinv.appended_step h
  cases h with
  | client t h => exact hrem.congr rfl rfl rfl (fun _ => rfl) happended rfl
  | stop _ => exact hrem.congr rfl rfl rfl (fun _ => rfl) happended rfl
  | wait hphase hready =>
    exact hrem.congr (by rw [hphase]; rfl) rfl rfl (fun _ => rfl) happended rfl
  | enqueue hphase h => exact hrem.congr rfl rfl rfl (fun _ => rfl) happended rfl
  | dequeue hphase h => exact hrem.congr rfl rfl rfl (fun _ => rfl) happended rfl
  | callback hphase =>
    exact hrem.congr (by rw [hphase]; rfl) rfl rfl (fun _ => rfl) happended rfl
  | returnFromReactor hphase =>
    have hdrained := hrem.notYet (by rw [hphase]; rfl)
    refine ⟨fun hloop => (by cases hloop), fun _ => ⟨_, _, rfl, ?_, ?_, ?_⟩⟩
    · exact (congrArg (s.finished.length + ·) hdrained).symm
    · have hremoved := hinv.removed
      rw [State.inHand, hphase, List.append_nil] at hremoved
      rw [← hremoved]
      exact hinv.fifo ▸ List.prefix_rfl
    · rw [List.length_map]
      exact hinv.length_le
  | execute hphase hpc =>
    exact hrem.congr (by rw [hphase]; rfl) rfl rfl (fun _ => rfl) happended rfl
  | posted hphase hpc =>
    exact hrem.congr (by rw [hphase]; rfl) rfl rfl (fun _ => rfl) happended rfl
  | drain hphase hpc hcount =>
    exact hrem.congr (by rw [hphase]; rfl) rfl rfl (fun _ => rfl) happended rfl
  | giveUp hphase hpc hcount =>
    exact hrem.congr (by rw [hphase]; rfl) rfl rfl (fun _ => rfl) happended rfl
  | empty hphase hpc =>
    exact hrem.congr (by rw [hphase]; rfl) rfl rfl (fun _ => rfl) happended rfl
  | itemPosts hphase =>
    exact hrem.congr (by rw [hphase]; rfl) rfl rfl (fun _ => rfl) happended rfl
  | itemReturns hphase =>
    refine hrem.congr (by rw [hphase]; rfl) rfl rfl (fun hloop => ?_) happended rfl
    rw [hphase] at hloop
    cases hloop
  | itemReturnsDrain hphase =>
    obtain ⟨before, items, hat, hlength, hinitial, hle⟩ := hrem.loop (by rw [hphase]; rfl)
    refine ⟨fun hloop => (by cases hloop), fun _ => ⟨before, items, hat, ?_, hinitial, hle⟩⟩
    change (s.finished ++ [_]).length = before.length + (s.drained + 1)
    rw [List.length_append, hlength]
    rfl

end Thread

end Osi
