import Osi.FixedQueue.Basic
import Osi.Transition.Calls
import Mathlib.Data.UInt

/-!
# The capacity of a queue

A thread that is alone with a queue tries to enqueue, to dequeue and to remove. The queue
honours its capacity if, at every moment of every such sequence, an attempt to enqueue
succeeds exactly while the length is below the capacity, and the enqueue fd tells the same.
The slots are counted in the 32 bits of an `unsigned int`, so the capacities that are
honoured are those with no bit above them.
-/

namespace Osi

open Transition

/-- `select(2)` on the fd of a semaphore, whose counter is given: the eventfd is readable
while the counter is positive. -/
def readable (counter : ℕ) : Bool := counter ≠ 0

namespace FixedQueue

/-- The calls that do not block. -/
inductive TryCall (α : Type*)
  | tryEnqueue (x : α)
  | tryDequeue
  | tryRemoveFromQueue (x : α)
  deriving DecidableEq, Repr

inductive Reply (α : Type*)
  | flag (b : Bool)
  | data (x : Option α)
  deriving DecidableEq, Repr

variable {α : Type*}

theorem slots_eq (q : FixedQueue α) : q.slots = q.capacity.toNat % 2 ^ 32 := rfl

theorem readable_enqueueSem (q : FixedQueue α) :
    readable q.enqueueSem = true ↔ q.length < q.slots := by
  unfold readable length
  rw [decide_eq_true_iff, ne_eq, enqueueSem_eq_zero_iff, not_le]

variable [DecidableEq α]

def step (q : FixedQueue α) : TryCall α → FixedQueue α × Reply α
  | .tryEnqueue x =>
      match q.tryEnqueue x with
      | some q' => (q', .flag true)
      | none => (q, .flag false)
  | .tryDequeue => (q.tryDequeue.2, .data q.tryDequeue.1)
  | .tryRemoveFromQueue x => ((q.tryRemoveFromQueue x).2, .data (q.tryRemoveFromQueue x).1)

def after (capacity : UInt64) (ls : List (TryCall α)) : FixedQueue α :=
  (calls step (new capacity) ls).1

/-- At this moment `fixed_queue_try_enqueue` and the enqueue fd both tell whether the length
is below the capacity. -/
structure Honours (q : FixedQueue α) : Prop where
  tryEnqueue : ∀ x, (q.step (.tryEnqueue x)).2 = .flag true ↔ q.length < q.capacity.toNat
  enqueueFd : readable q.enqueueSem = true ↔ q.length < q.capacity.toNat

/-! ### One call -/

/-- `fixed_queue_try_enqueue` returns true exactly if the enqueue fd is readable, and then
it appends. -/
theorem step_tryEnqueue (q : FixedQueue α) (x : α) :
    (q.length < q.slots ∧ (q.step (.tryEnqueue x)).2 = .flag true ∧
        (q.step (.tryEnqueue x)).1.length = q.length + 1) ∨
      (q.slots ≤ q.length ∧ q.step (.tryEnqueue x) = (q, .flag false)) := by
  simp only [step]
  cases h : q.tryEnqueue x with
  | some q' =>
    obtain ⟨hlt, hlist, -⟩ := (enqueue_eq_some_iff q q' x).mp h
    refine .inl ⟨hlt, rfl, ?_⟩
    simp [length, hlist]
  | none =>
    refine .inr ⟨?_, rfl⟩
    unfold FixedQueue.tryEnqueue at h
    split at h
    · exact q.enqueueSem_eq_zero_iff.mp ‹_›
    · cases h

theorem step_capacity (q : FixedQueue α) (l : TryCall α) : (q.step l).1.capacity = q.capacity := by
  cases l with
  | tryEnqueue x =>
    simp only [step]
    cases h : q.tryEnqueue x with
    | some q' => exact ((enqueue_eq_some_iff q q' x).mp h).2.2
    | none => rfl
  | tryDequeue =>
    change q.tryDequeue.2.capacity = q.capacity
    unfold FixedQueue.tryDequeue
    split <;> rfl
  | tryRemoveFromQueue x =>
    change (q.tryRemoveFromQueue x).2.capacity = q.capacity
    unfold FixedQueue.tryRemoveFromQueue
    split <;> rfl

/-! ### Sequences of calls -/

theorem after_capacity (capacity : UInt64) (ls : List (TryCall α)) :
    (after capacity ls).capacity = capacity :=
  calls_invariant (I := fun q => q.capacity = capacity)
    (fun q l hq => (step_capacity q l).trans hq) rfl ls

/-- What the calls really tell is whether a slot is free, so the queue honours its capacity
while it has the free slots it should have. -/
theorem honours_iff (q : FixedQueue α) :
    q.Honours ↔ (q.length < q.slots ↔ q.length < q.capacity.toNat) := by
  constructor
  · intro h
    exact (readable_enqueueSem q).symm.trans h.enqueueFd
  · intro h
    refine ⟨fun x => ?_, (readable_enqueueSem q).trans h⟩
    rw [← h]
    obtain ⟨hlt, hreply, -⟩ | ⟨hle, hreply⟩ := step_tryEnqueue q x
    · exact iff_of_true hreply hlt
    · rw [hreply]
      exact iff_of_false nofun (Nat.not_lt.mpr hle)

/-- A queue can be filled up to its last slot. -/
theorem length_after_replicate (capacity : UInt64) (x : α) {n : ℕ}
    (hn : n ≤ capacity.toNat % 2 ^ 32) :
    (after capacity (List.replicate n (.tryEnqueue x))).length = n := by
  induction n with
  | zero => rfl
  | succ n ih =>
    have hlength := ih (Nat.le_of_succ_le hn)
    rw [after, List.replicate_succ', calls_concat]
    change ((after capacity _).step _).1.length = n + 1
    obtain ⟨-, -, hnext⟩ | ⟨hle, -⟩ :=
      step_tryEnqueue (after capacity (List.replicate n (.tryEnqueue x))) x
    · rw [hnext, hlength]
    · rw [slots_eq, after_capacity, hlength] at hle
      exact absurd hle (Nat.not_le.mpr hn)

/-- The capacities that are honoured at every moment of every sequence of calls are those
below `2 ^ 32`. -/
theorem honours_capacity_iff [Inhabited α] (capacity : UInt64) :
    (∀ ls : List (TryCall α),
      (after capacity ls).capacity = capacity ∧ (after capacity ls).Honours) ↔
      capacity.toNat < 2 ^ 32 := by
  constructor
  · intro h
    by_contra hge
    -- with every slot taken there is still room in what the capacity promises
    have hfull := length_after_replicate capacity (default : α) le_rfl
    have hhonours := (honours_iff _).mp
      (h (List.replicate (capacity.toNat % 2 ^ 32) (.tryEnqueue default))).2
    rw [slots_eq, after_capacity, hfull] at hhonours
    have hlt : capacity.toNat % 2 ^ 32 < capacity.toNat :=
      (Nat.mod_lt _ (by decide)).trans_le (Nat.not_lt.mp hge)
    exact Nat.lt_irrefl _ (hhonours.mpr hlt)
  · intro hlt ls
    refine ⟨after_capacity capacity ls, (honours_iff _).mpr ?_⟩
    rw [slots_eq, after_capacity, Nat.mod_eq_of_lt hlt]

/-- A queue for `2 ^ 32` elements has no slot at all. -/
theorem honours_capacity_broken :
    ¬ (after (2 ^ 32) ([] : List (TryCall ℕ))).Honours ∧
      (after (2 ^ 32) ([] : List (TryCall ℕ))).capacity = 2 ^ 32 ∧
      (after (2 ^ 32) ([] : List (TryCall ℕ))).length = 0 ∧
      ((after (2 ^ 32) ([] : List (TryCall ℕ))).step (.tryEnqueue 1)).2 = .flag false := by
  refine ⟨fun h => ?_, rfl, rfl, by decide⟩
  have hread := (honours_iff _).mp h
  revert hread
  decide

end FixedQueue

end Osi
