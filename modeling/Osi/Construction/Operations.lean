import Osi.Construction.Readers
import Osi.Transition.Run

/-!
# Programs that construct and free

A program holds objects; its steps are the constructors, the calls on an object it holds,
and the parts of the threads' functions. Where a call would wait there is no step.
-/

namespace Osi

namespace Construction

open Ownership Transition
open Ownership.Triple (owned?)

inductive Object
  | semaphore (semaphore : Semaphore)
  | fixedQueue (queue : FixedQueue)
  | reactor (reactor : Reactor)
  | thread (thread : Thread)
  | eagerReader (reader : EagerReader)
  | socket (socket : Socket)
  deriving DecidableEq, Repr

inductive Class
  | semaphore (value : UInt32)
  | fixedQueue (capacity : UInt64)
  | reactor
  | thread (workQueueCapacity : UInt64)
  | eagerReader (maxBufferCount : UInt64)
  | socket
  deriving DecidableEq, Repr

/-- The parts of `run_thread`: up to `reactor_start`, an iteration of `run_reactor`, a call
of `work_queue_read_cb`, and what comes behind `reactor_start`. -/
inductive Part
  | register
  | iterate
  | workQueueRead
  | finish
  deriving DecidableEq, Repr

inductive Operation
  | free
  | semaphoreWait
  | semaphorePost
  /-- `fixed_queue_enqueue` of a new block -/
  | enqueue
  /-- `fixed_queue_dequeue`, and the block is freed -/
  | dequeue
  | reactorRegister
  | reactorUnregister (object : Res)
  | threadPost
  | threadStop
  | threadJoin
  | runThread (part : Part)
  | inboundDataWaiting
  | inboundEnqueue
  | eagerReaderRead (allRead : Bool)
  | socketAccept
  deriving DecidableEq, Repr

def construct (o : Outcomes) : Class → Sys (Option Object)
  | .semaphore value => do
      let semaphore ← semaphoreNew o value
      return semaphore.map .semaphore
  | .fixedQueue capacity => do
      let queue ← fixedQueueNew o capacity
      return queue.map .fixedQueue
  | .reactor => do
      let reactor ← reactorNew o
      return reactor.map .reactor
  | .thread workQueueCapacity => do
      let thread ← threadNewSized o workQueueCapacity
      return thread.map .thread
  | .eagerReader maxBufferCount => do
      let reader ← eagerReaderNew o maxBufferCount
      return reader.map .eagerReader
  | .socket => do
      let socket ← socketNew o
      return socket.map .socket

def Object.free (o : Outcomes) : Object → Sys Unit
  | .semaphore s => semaphoreFree (some s)
  | .fixedQueue q => fixedQueueFree (some q) true
  | .reactor r => reactorFree (some r)
  | .thread t => threadFree o (some t)
  | .eagerReader r => eagerReaderFree o (some r)
  | .socket s => socketFree (some s)

/-- The next part of `run_thread`, where the thread is. -/
def Thread.run (o : Outcomes) (thread : Thread) : Part → Option (Sys Thread)
  | .register =>
      if thread.phase = .starting then some (runThreadRegister o thread) else none
  | .iterate => if thread.phase.isRunning then some (threadIterate thread) else none
  | .workQueueRead => thread.phase.object.map fun _ => workQueueReadCb thread
  | .finish =>
      if thread.phase.isRunning && thread.stopped then some (runThreadFinish thread) else none

/-- The thread of a reader goes on when it is not about to enqueue a buffer. -/
def EagerReader.run (o : Outcomes) (reader : EagerReader) (part : Part) :
    Option (Sys EagerReader) :=
  match reader.inboundReadThread, reader.inboundBuffer with
  | some thread, none => (thread.run o part).map fun m => do
      let thread ← m
      return { reader with inboundReadThread := some thread }
  | _, _ => none

/-- The object is registered, and the thread is in `run_reactor` and in no callback. -/
def EagerReader.isServed (reader : EagerReader) : Bool :=
  reader.inboundReadObject.isSome && reader.inboundBuffer.isNone &&
    reader.inboundReadThread.any (·.phase.isRunning)

/-- An operation on an object, with the objects that are held after it; `none` if there
is no such operation. -/
def operate (o : Outcomes) : Operation → Object → Option (Sys (List Object))
  | .free, object => some do
      object.free o
      return []
  | .semaphoreWait, .semaphore semaphore => some do
      let semaphore ← semaphoreWait semaphore
      return [.semaphore semaphore]
  | .semaphorePost, .semaphore semaphore => some do
      let semaphore ← semaphorePost semaphore
      return [.semaphore semaphore]
  | .enqueue, .fixedQueue queue => some do
      let data ← osiMalloc
      let queue ← fixedQueueEnqueue queue data
      return [.fixedQueue queue]
  | .dequeue, .fixedQueue queue => some do
      let (data, queue) ← fixedQueueDequeue queue
      osiFree data
      return [.fixedQueue queue]
  | .reactorRegister, .reactor reactor => some do
      let (_, reactor) ← reactorRegister o.calls reactor
      return [.reactor reactor]
  | .reactorUnregister object, .reactor reactor => some do
      let reactor ← reactorUnregister reactor object
      return [.reactor reactor]
  | .threadPost, .thread thread => some do
      let thread ← threadPost thread
      return [.thread thread]
  | .threadStop, .thread thread => some do
      let thread ← threadStop thread
      return [.thread thread]
  | .threadJoin, .thread thread => some do
      let thread ← threadJoin o thread
      return [.thread thread]
  | .runThread part, .thread thread => (thread.run o part).map fun m => do
      let thread ← m
      return [.thread thread]
  | .runThread part, .eagerReader reader => (reader.run o part).map fun m => do
      let reader ← m
      return [.eagerReader reader]
  | .inboundDataWaiting, .eagerReader reader =>
      if reader.isServed then some do
        let reader ← inboundDataWaiting o reader
        return [.eagerReader reader]
      else none
  | .inboundEnqueue, .eagerReader reader => reader.inboundBuffer.map fun _ => do
      let reader ← inboundEnqueue reader
      return [.eagerReader reader]
  | .eagerReaderRead allRead, .eagerReader reader => some do
      let reader ← eagerReaderRead reader allRead
      return [.eagerReader reader]
  | .socketAccept, .socket socket => some do
      let accepted ← socketAccept o socket
      return accepted.toList.map .socket ++ [.socket socket]
  | _, _ => none

/-- The operation waits for what others do. -/
def waits : Operation → Object → Bool
  | .free, .eagerReader reader => reader.inboundBuffer.isSome
  | .semaphoreWait, .semaphore semaphore => semaphore.value == 0
  | .enqueue, .fixedQueue queue => queue.isFull
  | .dequeue, .fixedQueue queue => queue.isEmpty
  | .threadPost, .thread thread => thread.workQueue.any FixedQueue.isFull
  | .threadJoin, .thread thread => thread.joinWaits
  | .runThread .workQueueRead, .thread thread => thread.workQueue.any FixedQueue.isEmpty
  | .runThread .workQueueRead, .eagerReader reader =>
      reader.inboundReadThread.any fun thread => thread.workQueue.any FixedQueue.isEmpty
  | .inboundEnqueue, .eagerReader reader => reader.buffers.any FixedQueue.isFull
  | _, _ => false

structure State where
  world : World Kind
  objects : List Object

inductive Label
  | new (c : Class)
  | operate (op : Operation) (i : ℕ)
  deriving DecidableEq, Repr

/-- Why a step is not taken. -/
inductive StepFault
  /-- there is no such object or operation -/
  | notEnabled
  | fault (e : Fault)
  deriving DecidableEq, Repr

def State.run {α : Type} (s : State) (m : Sys α) (objects : α → List Object) :
    Except StepFault State :=
  match m s.world with
  | .ok (a, world) => .ok { world := world, objects := objects a }
  | .error e => .error (.fault e)

def step (o : Outcomes) (s : State) : Label → Except StepFault State
  | .new c => s.run (construct o c) fun object => object.toList ++ s.objects
  | .operate op i =>
      match s.objects[i]? with
      | none => .error .notEnabled
      | some object =>
          match operate o op object with
          | none => .error .notEnabled
          | some m => s.run m fun objects => objects ++ s.objects.eraseIdx i

/-- Nothing is held. -/
def start : State where
  world := World.empty Kind
  objects := []

/-- What a call asks of its caller: a reactor is freed when nothing is registered with it,
and what is unregistered is registered. -/
def permits : Operation → Object → Bool
  | .free, .reactor reactor => decide (reactor.objects = [])
  | .reactorUnregister object, .reactor reactor => decide (object ∈ reactor.objects)
  | _, _ => true

/-- The capacity of a queue is not zero where a constructor asserts it. -/
def Class.permits : Class → Bool
  | .thread workQueueCapacity => decide (workQueueCapacity ≠ 0)
  | .eagerReader maxBufferCount => decide (maxBufferCount ≠ 0)
  | _ => true

def Proper (s : State) : Label → Prop
  | .new c => c.permits = true
  | .operate op i => ∀ object ∈ s.objects[i]?, permits op object = true

instance (s : State) (l : Label) : Decidable (Proper s l) :=
  match l with
  | .new c => inferInstanceAs (Decidable (c.permits = true))
  | .operate _ i => inferInstanceAs (Decidable (∀ object ∈ s.objects[i]?, _ = true))

end Construction

end Osi
