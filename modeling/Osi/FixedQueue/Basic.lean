import Osi.Semaphore.Eventfd
import Mathlib.Data.List.Basic

/-!
# The fixed queue

`FixedQueue α` is a `fixed_queue_t` seen by one thread at a time: its list, the
counters of its two semaphores and its capacity. `enqueueSem` counts the free
slots and `dequeueSem` the elements that may be taken. While no operation is in
progress the counters are determined by the list, and the structure carries
that as its two invariant fields, so that no operation can be applied to a
queue whose semaphores disagree with its list. `FixedQueue/Interleaving.lean`
shows what becomes of the two equations while operations of several threads
overlap.

The capacity is a `size_t`, but `semaphore_new` takes an `unsigned int`, so the
number of slots is the capacity reduced to 32 bits.
-/

namespace Osi

/-- A fixed queue with no operation in progress. -/
structure FixedQueue (α : Type*) where
  list : List α
  enqueueSem : ℕ
  dequeueSem : ℕ
  capacity : UInt64
  dequeueSem_eq : dequeueSem = list.length
  enqueueSem_add : enqueueSem + list.length = semaphoreNew capacity.toUInt32

namespace FixedQueue

variable {α : Type*}

def slots (q : FixedQueue α) : ℕ := semaphoreNew q.capacity.toUInt32

def new (capacity : UInt64) : FixedQueue α where
  list := []
  enqueueSem := semaphoreNew capacity.toUInt32
  dequeueSem := semaphoreNew 0
  capacity := capacity
  dequeueSem_eq := rfl
  enqueueSem_add := rfl

/-- The semaphore counters are functions of the list and the capacity. -/
theorem ext {p q : FixedQueue α} (hlist : p.list = q.list)
    (hcap : p.capacity = q.capacity) : p = q := by
  obtain ⟨pl, pe, pd, pc, hpd, hpe⟩ := p
  obtain ⟨ql, qe, qd, qc, hqd, hqe⟩ := q
  obtain rfl : pl = ql := hlist
  obtain rfl : pc = qc := hcap
  obtain rfl : pd = qd := hpd.trans hqd.symm
  obtain rfl : pe = qe := by omega
  rfl

def length (q : FixedQueue α) : ℕ := q.list.length

/-- `fixed_queue_try_enqueue`: `none` when no slot is free. -/
def tryEnqueue (q : FixedQueue α) (x : α) : Option (FixedQueue α) :=
  if h : q.enqueueSem = 0 then none
  else some
    { q with
      list := q.list ++ [x]
      enqueueSem := q.enqueueSem - 1
      dequeueSem := q.dequeueSem + 1
      dequeueSem_eq := by simp [q.dequeueSem_eq]
      enqueueSem_add := by
        have := q.enqueueSem_add
        simp only [List.length_append, List.length_singleton]
        omega }

/-- `fixed_queue_enqueue`: `none` means that the caller waits for a slot. -/
def enqueue (q : FixedQueue α) (x : α) : Option (FixedQueue α) := q.tryEnqueue x

@[simp] theorem new_list (capacity : UInt64) :
    (new capacity : FixedQueue α).list = [] := rfl

theorem enqueueSem_eq_zero_iff (q : FixedQueue α) :
    q.enqueueSem = 0 ↔ q.slots ≤ q.list.length := by
  have := q.enqueueSem_add
  unfold slots
  omega

/-- Enqueueing succeeds exactly when the list is shorter than the number of
slots, and then it appends. -/
theorem enqueue_eq_some_iff (q q' : FixedQueue α) (x : α) :
    q.enqueue x = some q' ↔
      q.list.length < q.slots ∧ q'.list = q.list ++ [x] ∧
        q'.capacity = q.capacity := by
  unfold enqueue tryEnqueue
  split
  · rename_i hfull
    have := (enqueueSem_eq_zero_iff q).mp hfull
    constructor
    · intro h
      cases h
    · rintro ⟨hlt, _⟩
      omega
  · rename_i hroom
    have hlt : q.list.length < q.slots := by
      by_contra hge
      exact hroom ((enqueueSem_eq_zero_iff q).mpr (by omega))
    constructor
    · intro h
      cases h
      exact ⟨hlt, rfl, rfl⟩
    · rintro ⟨_, hlist, hcap⟩
      exact congrArg some (ext hlist.symm hcap.symm)

variable [DecidableEq α]

/-- The lock-protected step of the operations that take `x` out of the list,
together with the semaphores on both sides of it: the token of `x` is consumed
and its slot is given back. -/
def remove (q : FixedQueue α) (x : α) (hx : x ∈ q.list) : FixedQueue α where
  list := q.list.erase x
  enqueueSem := q.enqueueSem + 1
  dequeueSem := q.dequeueSem - 1
  capacity := q.capacity
  dequeueSem_eq := by rw [q.dequeueSem_eq, List.length_erase_of_mem hx]
  enqueueSem_add := by
    have := q.enqueueSem_add
    have hpos : 0 < q.list.length := List.length_pos_of_mem hx
    rw [List.length_erase_of_mem hx]
    omega

def tryDequeue (q : FixedQueue α) : Option α × FixedQueue α :=
  if h : q.dequeueSem = 0 then (none, q)
  else
    have hne : q.list ≠ [] := by
      intro hnil
      exact h (by rw [q.dequeueSem_eq, hnil, List.length_nil])
    (some (q.list.head hne), q.remove (q.list.head hne) (List.head_mem hne))

def dequeue (q : FixedQueue α) : Option (α × FixedQueue α) :=
  match q.tryDequeue with
  | (some x, q') => some (x, q')
  | (none, _) => none

def tryRemoveFromQueue (q : FixedQueue α) (x : α) : Option α × FixedQueue α :=
  if h : x ∈ q.list ∧ q.dequeueSem ≠ 0 then (some x, q.remove x h.1)
  else (none, q)

@[simp] theorem remove_list (q : FixedQueue α) (x : α) (hx : x ∈ q.list) :
    (q.remove x hx).list = q.list.erase x := rfl

theorem tryDequeue_of_nil {q : FixedQueue α} (h : q.list = []) :
    q.tryDequeue = (none, q) := by
  have hsem : q.dequeueSem = 0 := by rw [q.dequeueSem_eq, h, List.length_nil]
  simp [tryDequeue, hsem]

theorem tryDequeue_of_cons {q : FixedQueue α} {x : α} {l : List α}
    (h : q.list = x :: l) :
    q.tryDequeue.1 = some x ∧ q.tryDequeue.2.list = l ∧
      q.tryDequeue.2.capacity = q.capacity := by
  have hsem : q.dequeueSem ≠ 0 := by
    rw [q.dequeueSem_eq, h, List.length_cons]
    omega
  have hhead : ∀ hne : q.list ≠ [], q.list.head hne = x := by
    intro hne
    simp [h]
  refine ⟨?_, ?_, ?_⟩
  · simp [tryDequeue, hsem, hhead]
  · simp [tryDequeue, hsem, h]
  · simp [tryDequeue, hsem, remove]

theorem list_of_dequeue {q q' : FixedQueue α} {x : α} (h : q.dequeue = some (x, q')) :
    q.list = x :: q'.list := by
  unfold dequeue at h
  cases hlist : q.list with
  | nil =>
      rw [tryDequeue_of_nil hlist] at h
      cases h
  | cons y l =>
      obtain ⟨hfst, hsnd, -⟩ := tryDequeue_of_cons hlist
      rw [← Prod.mk.eta (p := q.tryDequeue), hfst] at h
      obtain ⟨rfl, rfl⟩ := Prod.mk.inj (Option.some.inj h)
      rw [hsnd]

/-- Dequeueing waits only while the list is empty. -/
theorem list_of_dequeue_none {q : FixedQueue α} (h : q.dequeue = none) : q.list = [] := by
  cases hlist : q.list with
  | nil => rfl
  | cons y l =>
      obtain ⟨hfst, -, -⟩ := tryDequeue_of_cons hlist
      unfold dequeue at h
      rw [← Prod.mk.eta (p := q.tryDequeue), hfst] at h
      cases h

/-- A token is present whenever the list holds the element, so with no other
operation in progress the removal is only a matter of membership. -/
theorem tryRemoveFromQueue_of_mem {q : FixedQueue α} {x : α} (h : x ∈ q.list) :
    q.tryRemoveFromQueue x = (some x, q.remove x h) := by
  have hsem : q.dequeueSem ≠ 0 := by
    have := List.length_pos_of_mem h
    rw [q.dequeueSem_eq]
    omega
  simp [tryRemoveFromQueue, h, hsem]

theorem tryRemoveFromQueue_of_not_mem {q : FixedQueue α} {x : α}
    (h : x ∉ q.list) : q.tryRemoveFromQueue x = (none, q) := by
  simp [tryRemoveFromQueue, h]

end FixedQueue

end Osi
