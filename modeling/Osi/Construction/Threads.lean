import Osi.Construction.Queues

/-!
# Reactors and threads

The owner of a thread makes the calls of `thread.h`; `run_thread` is cut at its call of
`reactor_start`, which returns after `thread_stop`.
-/

namespace Osi

namespace Construction

open Ownership

/-! ## Reactors -/

/-- `reactor_t`, with the objects that are registered. -/
structure Reactor where
  block : Res
  epollFd : Option Res
  eventFd : Option Res
  invalidationList : Option ListT
  objects : List Res
  deriving DecidableEq, Repr

def reactorFree : Option Reactor → Sys Unit
  | none => pure ()
  | some reactor => do
      use reactor.block
      listFree reactor.invalidationList
      close reactor.eventFd
      close reactor.epollFd
      osiFree reactor.block

def reactorNew (o : Outcomes) : Sys (Option Reactor) := do
  let block ← osiMalloc
  let ret : Reactor :=
    { block, epollFd := none, eventFd := none, invalidationList := none, objects := [] }
  match ← attempt o.calls .descriptor with
  | none => do
      reactorFree (some ret)
      return none
  | some epollFd =>
  match ← attempt o.calls .descriptor with
  | none => do
      reactorFree (some { ret with epollFd })
      return none
  | some eventFd =>
  match ← listNew with
  | none => do
      reactorFree (some { ret with epollFd, eventFd })
      return none
  | some invalidationList =>
  if ← outcome o.calls then
    return some { ret with epollFd, eventFd, invalidationList }
  else do
    reactorFree (some { ret with epollFd, eventFd, invalidationList })
    return none

/-- `reactor_register`, with the outcomes of its `epoll_ctl`. -/
def reactorRegister (epollCtl : ℕ → Bool) (reactor : Reactor) :
    Sys (Option Res × Reactor) := do
  let object ← osiMalloc
  use reactor.block
  if ← outcome epollCtl then
    return (some object, { reactor with objects := object :: reactor.objects })
  else do
    osiFree object
    return (none, reactor)

/-- `reactor_unregister`, while no callback of the object runs. -/
def reactorUnregister (reactor : Reactor) (object : Res) : Sys Reactor := do
  use object
  use reactor.block
  match reactor.invalidationList with
  | none => null
  | some list => do
      let list ← listAppend list object
      osiFree object
      return { reactor with
        invalidationList := some list
        objects := reactor.objects.erase object }

/-- The beginning of an iteration of `run_reactor`: `list_clear` on the invalidation list. -/
def reactorIterate (reactor : Reactor) : Sys Reactor := do
  use reactor.block
  match reactor.invalidationList with
  | none => null
  | some list => do
      use list.block
      freeAll (list.nodes.map ListNode.block)
      return { reactor with invalidationList := some { list with nodes := [] } }

/-! ## Threads -/

/-- How far `run_thread` is: behind its `semaphore_post`, in `reactor_start` with the object
that it has registered, or returned. -/
inductive Phase
  | starting
  | running (workQueueObject : Option Res)
  | returned
  deriving DecidableEq, Repr

/-- The object that `run_thread` has registered. -/
def Phase.object : Phase → Option Res
  | .running object => object
  | _ => none

/-- `run_thread` is in `reactor_start`. -/
def Phase.isRunning : Phase → Bool
  | .running _ => true
  | _ => false

/-- `thread_t`; `stopped` says that `reactor_stop` was called. -/
structure Thread where
  block : Res
  isJoined : Bool
  pthread : Option Res
  reactor : Option Reactor
  workQueue : Option FixedQueue
  phase : Phase
  stopped : Bool
  deriving DecidableEq, Repr

/-- The label `error` of `thread_new_sized`. -/
def threadNewError (ret : Thread) : Sys (Option Thread) := do
  fixedQueueFree ret.workQueue true
  reactorFree ret.reactor
  osiFree ret.block
  return none

/-- `pthread_create`, and the new thread up to its `semaphore_post`, with what it says of
its name. -/
def pthreadCreate (o : Outcomes) (startSem : Semaphore) :
    Sys (Option Res × Bool × Semaphore) := do
  if ← outcome o.pthreadCreate then do
    let pthread ← acquire .thread
    let named ← outcome o.prctl
    let startSem ← semaphorePost startSem
    return (some pthread, named, startSem)
  else return (none, true, startSem)

def threadNewSized (o : Outcomes) (workQueueCapacity : UInt64) : Sys (Option Thread) := do
  assertThat (workQueueCapacity ≠ 0)
  let block ← osiMalloc
  let ret : Thread :=
    { block, isJoined := false, pthread := none, reactor := none, workQueue := none
      phase := .starting, stopped := false }
  match ← reactorNew o with
  | none => threadNewError ret
  | some reactor =>
  match ← fixedQueueNew o workQueueCapacity with
  | none => threadNewError { ret with reactor }
  | some workQueue =>
  match ← semaphoreNew o 0 with
  | none => threadNewError { ret with reactor, workQueue }
  | some startSem => do
      -- the outcome of `pthread_create` is not looked at
      let (pthread, named, startSem) ← pthreadCreate o startSem
      let startSem ← semaphoreWait startSem
      semaphoreFree (some startSem)
      if named then return some { ret with reactor, workQueue, pthread }
      else threadNewError { ret with reactor, workQueue, pthread }

/-- `DEFAULT_WORK_QUEUE_CAPACITY`. -/
def defaultWorkQueueCapacity : UInt64 := 128

def threadNew (o : Outcomes) : Sys (Option Thread) := threadNewSized o defaultWorkQueueCapacity

/-- `run_thread` from its `semaphore_post` to `reactor_start`. -/
def runThreadRegister (o : Outcomes) (thread : Thread) : Sys Thread := do
  use thread.block
  match thread.reactor with
  | none => null
  | some reactor => do
      let (object, reactor) ← reactorRegister o.runThreadEpollCtl reactor
      return { thread with reactor := some reactor, phase := .running object }

/-- The last loop of `run_thread`, with the number of items that it may still execute. -/
def drain : ℕ → FixedQueue → Sys FixedQueue
  | left, queue => do
      match ← fixedQueueTryDequeue queue with
      | none => return queue
      | some (item, queue) =>
          match left with
          | 0 => return queue
          | left + 1 => do
              osiFree item
              drain left queue

/-- `run_thread` from the return of `reactor_start` to its end. -/
def runThreadFinish (thread : Thread) : Sys Thread := do
  use thread.block
  match thread.phase, thread.reactor, thread.workQueue with
  | .running (some object), some reactor, some queue => do
      let reactor ← reactorUnregister reactor object
      let queue ← drain (queue.capacity.toNat + 1) queue
      return { thread with reactor := some reactor, workQueue := some queue, phase := .returned }
  -- `reactor_unregister` asserts its argument
  | .running none, _, _ => fail .assertion
  | _, _, _ => null

/-- `work_queue_read_cb`. -/
def workQueueReadCb (thread : Thread) : Sys Thread := do
  use thread.block
  match thread.workQueue with
  | none => null
  | some queue => do
      let (item, queue) ← fixedQueueDequeue queue
      osiFree item
      return { thread with workQueue := some queue }

/-- The thread in `run_reactor`, at the beginning of an iteration. -/
def threadIterate (thread : Thread) : Sys Thread := do
  use thread.block
  match thread.reactor with
  | none => null
  | some reactor => do
      let reactor ← reactorIterate reactor
      return { thread with reactor := some reactor }

/-- `pthread_join`: a thread that was stopped runs to its end. -/
def pthreadJoin (o : Outcomes) (thread : Thread) : Sys Thread :=
  match thread.phase, thread.stopped with
  | .returned, _ => return thread
  | _, false => fail .blocked
  | .starting, true => do
      let thread ← runThreadRegister o thread
      runThreadFinish thread
  | .running _, true => runThreadFinish thread

def threadJoin (o : Outcomes) (thread : Thread) : Sys Thread := do
  use thread.block
  if thread.isJoined then return thread
  else
    match thread.pthread with
    | none => null
    | some pthread => do
        let thread ← pthreadJoin o thread
        release pthread
        return { thread with isJoined := true }

/-- `thread_join` waits: nobody has joined the thread, and it was not stopped and has not
returned. -/
def Thread.joinWaits (thread : Thread) : Bool :=
  decide (thread.isJoined = false ∧ thread.stopped = false ∧ thread.phase ≠ .returned)

def threadPost (thread : Thread) : Sys Thread := do
  use thread.block
  let item ← osiMalloc
  match thread.workQueue with
  | none => null
  | some queue => do
      let queue ← fixedQueueEnqueue queue item
      return { thread with workQueue := some queue }

def threadStop (thread : Thread) : Sys Thread := do
  use thread.block
  match thread.reactor with
  | none => null
  | some reactor => do
      use reactor.block
      return { thread with stopped := true }

def threadFree (o : Outcomes) : Option Thread → Sys Unit
  | none => pure ()
  | some thread => do
      let thread ← threadStop thread
      let thread ← threadJoin o thread
      fixedQueueFree thread.workQueue true
      reactorFree thread.reactor
      osiFree thread.block

end Construction

end Osi
