import Osi.EagerReader.Basic

/-!
# Freeing an eager reader

`eager_reader_free` is called by the consumer while the inbound thread runs on. It takes
the inbound object out of the epoll set and onto the invalidation list, waits for the lock
of the object, which the inbound thread holds during `inbound_data_waiting`, and only then
closes the eventfd, frees the buffers and stops and joins the thread.

A callback may still begin until the object is on the list. One that has begun may be
waiting in `fixed_queue_enqueue` for a slot, and there is no consumer any more that would
take a buffer out: then the lock is never given back.

The steps of the reader are those of its own model, within the callback or by the
consumer before it frees the reader. `chunks` are the contents of the buffers that were
read into, and `released` of those that were freed, in order.
-/

namespace Osi

namespace EagerReader

namespace Lifetime

open Transition

/-- Where the inbound thread is: outside of the callback, in `inbound_data_waiting`, or
about to unlock the object after it. -/
inductive Callback
  | outside
  | entered
  | finished
  deriving DecidableEq, Repr

/-- Where the consumer is in `eager_reader_free`; `opened` is before the call. -/
inductive Phase
  | opened
  /-- `reactor_unregister`, with its wait for the lock of the object -/
  | delete
  | append
  | lockObject
  | closeFd
  | freeCurrent
  | freeBuffers
  /-- `thread_free` -/
  | stop
  | join
  | freeReader
  | done
  deriving DecidableEq, Repr

def Phase.rank : Phase → ℕ
  | .opened => 0
  | .delete => 1
  | .append => 2
  | .lockObject => 3
  | .closeFd => 4
  | .freeCurrent => 5
  | .freeBuffers => 6
  | .stop => 7
  | .join => 8
  | .freeReader => 9
  | .done => 10

def Phase.isPast (p q : Phase) : Bool := decide (q.rank < p.rank)

structure State where
  reader : EagerReader
  callback : Callback
  phase : Phase
  stopped : Bool
  exited : Bool
  chunks : List (List UInt8)
  released : List (List UInt8)

inductive Label
  /-- `run_reactor` locks the object and calls back -/
  | enter
  /-- the allocator returns `NULL` -/
  | noBuffer
  /-- a step of the reader's own model -/
  | reader (l : EagerReader.Label)
  /-- `run_reactor` unlocks the object -/
  | leave
  /-- the inbound thread returns from `run_reactor` -/
  | exit
  /-- the consumer calls `eager_reader_free` -/
  | free
  /-- the consumer goes on in it -/
  | run
  deriving DecidableEq, Repr

inductive Fault
  | blocked
  | notEnabled
  /-- something is used that is released -/
  | released
  deriving DecidableEq, Repr

namespace State

def buffered (s : State) : List (List UInt8) :=
  (s.reader.currentBuffer.map DataBuffer.data).toList ++
    s.reader.buffers.list.map DataBuffer.data

/-- The buffer that the callback has read into and not yet put into the queue. -/
def inHand (s : State) : List (List UInt8) :=
  match s.reader.producer with
  | .enqueueing b => [b.data]
  | _ => []

def inbound (s : State) (l : EagerReader.Label) (gone : Bool) (chunk : List (List UInt8))
    (callback : Callback) : Except Fault State :=
  if s.callback = .entered then
    if gone then .error .released
    else
      match s.reader.step l with
      | .ok reader =>
          .ok { s with reader := reader, callback := callback, chunks := s.chunks ++ chunk }
      | .error .blocked => .error .blocked
      | .error .notEnabled => .error .notEnabled
  else .error .notEnabled

/-- A step of the consumer, who frees the current buffer when it is used up. -/
def consume (s : State) (l : EagerReader.Label) : Except Fault State :=
  if s.phase = .opened then
    match s.reader.step l with
    | .ok reader =>
        .ok { s with
          reader := reader
          released := s.released ++
            if reader.currentBuffer.isNone then
              (s.reader.currentBuffer.map DataBuffer.data).toList
            else [] }
    | .error .blocked => .error .blocked
    | .error .notEnabled => .error .notEnabled
  else .error .notEnabled

def runFree (s : State) : Except Fault State :=
  match s.phase with
  | .opened | .done => .error .notEnabled
  | .delete => .ok { s with phase := .append }
  | .append => .ok { s with phase := .lockObject }
  | .lockObject =>
      if s.callback = .outside then .ok { s with phase := .closeFd } else .error .blocked
  | .closeFd => .ok { s with phase := .freeCurrent }
  | .freeCurrent =>
      .ok { s with
        phase := .freeBuffers
        reader := { s.reader with currentBuffer := none }
        released := s.released ++ (s.reader.currentBuffer.map DataBuffer.data).toList }
  | .freeBuffers =>
      .ok { s with
        phase := .stop
        reader := { s.reader with buffers := FixedQueue.new s.reader.buffers.capacity }
        released := s.released ++ s.reader.buffers.list.map DataBuffer.data }
  | .stop => .ok { s with phase := .join, stopped := true }
  | .join => if s.exited then .ok { s with phase := .freeReader } else .error .blocked
  | .freeReader => .ok { s with phase := .done }

def step (s : State) : Label → Except Fault State
  | .enter =>
      if s.callback = .outside ∧ s.exited = false ∧ s.phase.isPast .append = false then
        .ok { s with callback := .entered }
      else .error .notEnabled
  | .noBuffer =>
      if s.callback = .entered ∧ s.reader.producer = .waiting then
        .ok { s with callback := .finished }
      else .error .notEnabled
  | .reader (.read chunk) => s.inbound (.read chunk) (s.phase.isPast .freeReader) [chunk] .entered
  | .reader .readFailed => s.inbound .readFailed (s.phase.isPast .freeReader) [] .finished
  | .reader .enqueue => s.inbound .enqueue (s.phase.isPast .freeBuffers) [] .entered
  | .reader .count => s.inbound .count (s.phase.isPast .closeFd) [] .finished
  | .reader l => s.consume l
  | .leave =>
      if s.callback = .finished then
        if s.phase.isPast .lockObject then .error .released
        else .ok { s with callback := .outside }
      else .error .notEnabled
  | .exit =>
      if s.stopped ∧ s.callback = .outside ∧ s.exited = false then .ok { s with exited := true }
      else .error .notEnabled
  | .free =>
      if s.phase = .opened ∧ s.reader.consumer = .idle then .ok { s with phase := .delete }
      else .error .notEnabled
  | .run => s.runFree

end State

def start (bufferSize : ℕ) (maxBufferCount : UInt64) : State where
  reader := EagerReader.new bufferSize maxBufferCount
  callback := .outside
  phase := .opened
  stopped := false
  exited := false
  chunks := []
  released := []

end Lifetime

end EagerReader

end Osi
