import Osi.Ownership.Triple

/-!
# Constructors that may fail halfway

A constructor makes several calls, any of which may fail, and on its error path releases
what it has got so far, often with the destructor of the whole object. An object is the
structure of its fields; a field that is `NULL` or `INVALID_FD` is `none`. Memory that is
requested is always found, since `osi_malloc` and `osi_calloc` assert it.

The resources are the blocks of memory, the descriptors, and the threads that are not
joined. What is accessed through a pointer is used, so that an access to a released
object is a fault, and so is one through `NULL`. A call that waits is blocked: it is made
when others have done what it waits for. So `run_thread` and `inbound_data_waiting` are cut
into the parts between which other threads come in, and `thread_join` lets a thread that
was stopped run to its end. The functions of the work items do nothing here.
-/

namespace Osi

namespace Construction

open Ownership

inductive Kind
  | block
  | descriptor
  | thread
  deriving DecidableEq, Repr

abbrev Res := Resource Kind

abbrev Sys := Program Kind

structure Outcomes where
  /-- `eventfd`, `epoll_create`, `epoll_ctl`, `socket`, `setsockopt`, `accept`, and the
  allocator of an eager reader -/
  calls : ℕ → Bool
  pthreadCreate : ℕ → Bool
  prctl : ℕ → Bool
  /-- the `epoll_ctl` by which `run_thread` registers its queue -/
  runThreadEpollCtl : ℕ → Bool

def osiMalloc : Sys Res := acquire .block

def osiFree (block : Res) : Sys Unit := release block

/-- `close`, which does nothing to `INVALID_FD`. -/
def close (fd : Option Res) : Sys Unit := fd.elim (pure ()) release

/-- An access through `NULL`. -/
def null {α : Type} : Sys α := fail .notLive

def assertThat (p : Prop) [Decidable p] : Sys Unit := if p then pure () else fail .assertion

/-! ## Lists -/

structure ListNode where
  block : Res
  data : Res
  deriving DecidableEq, Repr

structure ListT where
  block : Res
  nodes : List ListNode
  deriving DecidableEq, Repr

def listNew : Sys (Option ListT) := do
  let block ← osiMalloc
  return some { block, nodes := [] }

def listAppend (list : ListT) (data : Res) : Sys ListT := do
  use list.block
  let block ← osiMalloc
  return { list with nodes := list.nodes ++ [{ block, data }] }

def freeAll : List Res → Sys Unit
  | [] => pure ()
  | r :: rs => do
      osiFree r
      freeAll rs

/-- `list_free`, of a list without a callback. -/
def listFree : Option ListT → Sys Unit
  | none => pure ()
  | some list => do
      use list.block
      freeAll (list.nodes.map ListNode.block)
      osiFree list.block

/-! ## Semaphores and queues -/

structure Semaphore where
  block : Res
  fd : Res
  value : ℕ
  deriving DecidableEq, Repr

def semaphoreNew (o : Outcomes) (value : UInt32) : Sys (Option Semaphore) := do
  let block ← osiMalloc
  match ← attempt o.calls .descriptor with
  | some fd => return some { block, fd, value := value.toNat }
  | none => do
      osiFree block
      return none

def semaphoreFree : Option Semaphore → Sys Unit
  | none => pure ()
  | some semaphore => do
      use semaphore.block
      close semaphore.fd
      osiFree semaphore.block

def semaphoreWait (semaphore : Semaphore) : Sys Semaphore := do
  use semaphore.block
  use semaphore.fd
  match semaphore.value with
  | 0 => fail .blocked
  | value + 1 => return { semaphore with value := value }

def semaphorePost (semaphore : Semaphore) : Sys Semaphore := do
  use semaphore.block
  use semaphore.fd
  return { semaphore with value := semaphore.value + 1 }

/-- `fixed_queue_t`, not registered with a reactor. -/
structure FixedQueue where
  block : Res
  capacity : UInt64
  list : Option ListT
  enqueueSem : Option Semaphore
  dequeueSem : Option Semaphore
  deriving DecidableEq, Repr

def freeElements : Option ListT → Sys Unit
  | none => fail .assertion
  | some list => do
      use list.block
      freeAll (list.nodes.map ListNode.data)

/-- `fixed_queue_free`; `freeCb` says whether the callback is `osi_free` or `NULL`. -/
def fixedQueueFree (queue : Option FixedQueue) (freeCb : Bool) : Sys Unit :=
  match queue with
  | none => pure ()
  | some queue => do
      use queue.block
      cond freeCb (freeElements queue.list) (pure ())
      listFree queue.list
      semaphoreFree queue.enqueueSem
      semaphoreFree queue.dequeueSem
      osiFree queue.block

def fixedQueueNew (o : Outcomes) (capacity : UInt64) : Sys (Option FixedQueue) := do
  let block ← osiMalloc
  let ret : FixedQueue :=
    { block, capacity, list := none, enqueueSem := none, dequeueSem := none }
  match ← listNew with
  | none => do
      fixedQueueFree (some ret) false
      return none
  | some list =>
  -- the capacity is cut down to an `unsigned int`
  match ← semaphoreNew o capacity.toUInt32 with
  | none => do
      fixedQueueFree (some { ret with list }) false
      return none
  | some enqueueSem =>
  match ← semaphoreNew o 0 with
  | none => do
      fixedQueueFree (some { ret with list, enqueueSem }) false
      return none
  | some dequeueSem => return some { ret with list, enqueueSem, dequeueSem }

def fixedQueueEnqueue (queue : FixedQueue) (data : Res) : Sys FixedQueue := do
  use queue.block
  match queue.enqueueSem, queue.list, queue.dequeueSem with
  | some enqueueSem, some list, some dequeueSem => do
      let enqueueSem ← semaphoreWait enqueueSem
      let list ← listAppend list data
      let dequeueSem ← semaphorePost dequeueSem
      return { queue with list := some list, enqueueSem, dequeueSem }
  | _, _, _ => null

/-- `list_front` and `list_remove` of the element. -/
def listTake (list : ListT) : Sys (Res × ListT) := do
  use list.block
  match list.nodes with
  | [] => fail .assertion
  | node :: nodes => do
      osiFree node.block
      return (node.data, { list with nodes := nodes })

def fixedQueueDequeue (queue : FixedQueue) : Sys (Res × FixedQueue) := do
  use queue.block
  match queue.dequeueSem, queue.list, queue.enqueueSem with
  | some dequeueSem, some list, some enqueueSem => do
      let dequeueSem ← semaphoreWait dequeueSem
      let (data, list) ← listTake list
      let enqueueSem ← semaphorePost enqueueSem
      return (data, { queue with list := some list, enqueueSem, dequeueSem })
  | _, _, _ => null

/-- The semaphore of the free places is at zero. -/
def FixedQueue.isFull (queue : FixedQueue) : Bool := queue.enqueueSem.any (·.value == 0)

def FixedQueue.isEmpty (queue : FixedQueue) : Bool := queue.dequeueSem.any (·.value == 0)

/-- `fixed_queue_try_dequeue`, which does what `fixed_queue_dequeue` does if that does not
wait. -/
def fixedQueueTryDequeue (queue : FixedQueue) : Sys (Option (Res × FixedQueue)) := do
  use queue.block
  if queue.isEmpty then return none
  else do
    let r ← fixedQueueDequeue queue
    return some r

end Construction

end Osi
