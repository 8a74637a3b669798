import Osi.FixedQueue.Interleaving.Runs

/-!
# A thread and its work queue

`run_thread` first serves the reactor, where `work_queue_read_cb` takes one item from
the work queue and executes it whenever the queue is reported, and after
`reactor_start` has returned executes what is left in the queue. Clients post items
and stop the thread while it runs, and so may the items that it executes. Every
operation on the queue is interleaved step by step; the thread itself is `none` among
the threads of the queue.

`epoll_wait` reports the work queue while its dequeue semaphore is not zero, and the
stop request, in any order. Only this thread takes from the queue, so that a queue
that was reported stays ready until its turn comes.
-/

namespace Osi

namespace Thread

open SharedQueue (Fault)

/-- What `epoll_wait` reports: the dequeue descriptor of the work queue, or the
descriptor that `reactor_stop` writes to. -/
inductive Event
  | workQueue
  | stop
  deriving DecidableEq, Repr

/-- Who executes an item: `work_queue_read_cb`, with the events that are still to be
handled, or the last loop of `run_thread`, with its counter. -/
inductive Caller
  | callback (events : List Event)
  | drain (count : UInt64)
  deriving DecidableEq, Repr

inductive Phase (α : Type*)
  /-- in `run_reactor`, with the events that are still to be handled -/
  | reactor (events : List Event)
  /-- in the `fixed_queue_dequeue` of `work_queue_read_cb` -/
  | dequeuing (events : List Event)
  /-- in the function of an item -/
  | executing (item : α) (caller : Caller)
  /-- in a `thread_post` that an item makes -/
  | posting (item : α) (caller : Caller)
  /-- in a `fixed_queue_try_dequeue` after `reactor_start` -/
  | draining (count : UInt64)
  /-- `run_thread` has returned; `item` is what was dequeued last, if it was not
  executed -/
  | returned (item : Option α)
  deriving DecidableEq, Repr

/-- A `thread_t` and its clients `T`. The last three fields record what happened: the
items whose functions have returned, how many of them in the last loop, and what had
been executed and what was in the queue when `reactor_start` returned. -/
structure State (T α : Type*) where
  capacity : UInt64
  workQueue : SharedQueue.State (Option T) α
  phase : Phase α
  stopped : Bool
  finished : List α
  drained : ℕ
  atReturn : Option (List α × List α)

inductive Label (T α : Type*)
  /-- a client calls `thread_post` -/
  | post (t : T) (item : α)
  /-- a client goes on with `thread_post` -/
  | client (t : T)
  /-- a client calls `thread_stop` -/
  | stop (t : T)
  /-- `epoll_wait` returns -/
  | wait (events : List Event)
  /-- the thread goes on -/
  | run
  /-- the item that is executed calls `thread_post` -/
  | itemPosts (item : α)
  /-- the item that is executed calls `thread_stop` -/
  | itemStops
  /-- the item that is executed returns -/
  | itemReturns
  deriving DecidableEq, Repr

variable {T α : Type*} [DecidableEq T] [DecidableEq α]

def threadNewSized (capacity : UInt64) : State T α where
  capacity := capacity
  workQueue := SharedQueue.State.init capacity
  phase := .reactor []
  stopped := false
  finished := []
  drained := 0
  atReturn := none

namespace State

def ready (s : State T α) : Event → Bool
  | .workQueue => s.workQueue.dequeueSem ≠ 0
  | .stop => s.stopped

def call (s : State T α) (op : SharedQueue.Op α) (phase : Phase α) :
    Except Fault (State T α) :=
  (s.workQueue.step (.call none op)).map fun workQueue =>
    { s with workQueue := workQueue, phase := phase }

def continueCall (s : State T α) : Except Fault (State T α) :=
  (s.workQueue.step (.run none)).map fun workQueue => { s with workQueue := workQueue }

/-- The thread goes on, outside the functions of the items. -/
def advance (s : State T α) : Except Fault (State T α) :=
  match s.phase with
  | .reactor [] => .error .notEnabled
  | .reactor (.workQueue :: events) => s.call .dequeue (.dequeuing events)
  | .reactor (.stop :: _) =>
      { s with
        atReturn := some (s.finished, s.workQueue.list.map SharedQueue.Node.data) }.call
        .tryDequeue (.draining 0)
  | .dequeuing events =>
      match s.workQueue.pc none with
      | .idle (.data (some item)) => .ok { s with phase := .executing item (.callback events) }
      | .idle _ => .error .assertion
      | _ => s.continueCall
  | .posting item caller =>
      match s.workQueue.pc none with
      | .idle _ => .ok { s with phase := .executing item caller }
      | _ => s.continueCall
  | .draining count =>
      match s.workQueue.pc none with
      | .idle (.data (some item)) =>
          if count ≤ s.capacity then .ok { s with phase := .executing item (.drain count) }
          else .ok { s with phase := .returned (some item) }
      | .idle (.data none) => .ok { s with phase := .returned none }
      | .idle _ => .error .assertion
      | _ => s.continueCall
  | .executing _ _ => .error .notEnabled
  | .returned _ => .error .notEnabled

def step (s : State T α) : Label T α → Except Fault (State T α)
  | .post t item =>
      (s.workQueue.step (.call (some t) (.enqueue item))).map fun workQueue =>
        { s with workQueue := workQueue }
  | .client t =>
      (s.workQueue.step (.run (some t))).map fun workQueue => { s with workQueue := workQueue }
  | .stop t =>
      match s.workQueue.pc (some t) with
      | .idle _ => .ok { s with stopped := true }
      | _ => .error .notEnabled
  | .wait events =>
      match s.phase with
      | .reactor [] =>
          if events ≠ [] ∧ events.Nodup ∧ ∀ e ∈ events, s.ready e = true then
            .ok { s with phase := .reactor events }
          else .error .blocked
      | _ => .error .notEnabled
  | .run => s.advance
  | .itemPosts item =>
      match s.phase with
      | .executing current caller => s.call (.enqueue item) (.posting current caller)
      | _ => .error .notEnabled
  | .itemStops =>
      match s.phase with
      | .executing _ _ => .ok { s with stopped := true }
      | _ => .error .notEnabled
  | .itemReturns =>
      match s.phase with
      | .executing item (.callback events) =>
          .ok { s with phase := .reactor events, finished := s.finished ++ [item] }
      | .executing item (.drain count) =>
          { s with finished := s.finished ++ [item], drained := s.drained + 1 }.call
            .tryDequeue (.draining (count + 1))
      | _ => .error .notEnabled

end State

end Thread

end Osi
