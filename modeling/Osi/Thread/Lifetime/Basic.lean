import Osi.Thread.Join

/-!
# The life of a thread

`thread_new_sized` hands the new thread a `start_arg` on its own stack and waits on a
semaphore in it, which it then frees; it frees the thread as well when `run_thread` has
written an error. What comes from `pthread_create` is not looked at. Later one caller frees
the thread: `thread_free` stops it, joins it and frees the queue, the reactor and the
`thread_t`, which `run_thread` uses until it returns.

`thread_join` and `thread_free` may also be called by an item that the thread executes.
Then `pthread_join` returns `EDEADLK` at once, and nobody looks at that.

Of `thread_new_sized` this is what comes after `semaphore_new`.
-/

namespace Osi

namespace Thread

namespace Lifetime

open Transition

inductive Object
  /-- the `start_arg` on the stack of `thread_new_sized` -/
  | start
  | startSem
  | thread
  | reactor
  | workQueue
  deriving DecidableEq, Repr

/-- Where the owner of the thread is: in `thread_new_sized`, outside of any call, in
`thread_join` or in `thread_free`. `freeing` tells a `thread_join` that `thread_free` calls,
and `error` the release in `thread_new_sized` from that in `thread_free`. -/
inductive Owner
  /-- about to call `pthread_create` -/
  | create
  | wait
  | freeSem
  | checkError
  | holding
  | stop
  | readJoined (freeing : Bool)
  /-- in `pthread_join` -/
  | joining (freeing : Bool)
  | freeQueue (error : Bool)
  | freeReactor (error : Bool)
  | freeThread (error : Bool)
  | returned (error : Bool)
  deriving DecidableEq, Repr

/-- Where the new thread is, up to its `semaphore_post`; `running` is after it. -/
inductive Worker
  | absent
  /-- about to call `prctl` -/
  | setName
  | reportError
  | postError
  /-- `run_thread` has returned after a failed `prctl` -/
  | failed
  | setTid
  | postStarted
  | running
  deriving DecidableEq, Repr

structure State (T α : Type*) where
  thread : Thread.State T α
  owner : Owner
  worker : Worker
  alive : Object → Bool
  /-- the counter of `start_sem` -/
  startCount : ℕ
  error : Bool
  isJoined : Bool
  /-- the last `thread_join` or `thread_free` was called by an item of the thread -/
  inItem : Bool
  /-- the thread has called `pthread_join` on itself -/
  selfJoined : Bool
  /-- the items that `fixed_queue_free` has freed -/
  freed : List α

inductive Label (T α : Type*)
  | create (created : Bool)
  /-- `prctl` returns -/
  | setName (named : Bool)
  /-- the new thread goes on, up to its `semaphore_post` -/
  | worker
  /-- a step of the running thread or of a client -/
  | thread (l : Thread.Label T α)
  | join (inItem : Bool)
  | free (inItem : Bool)
  /-- the owner goes on in its call -/
  | owner
  deriving DecidableEq, Repr

inductive Fault
  | assertion
  | blocked
  | notEnabled
  /-- something is used or released that is released -/
  | released
  deriving DecidableEq, Repr

variable {T α : Type*}

/-- What a step of the thread or of a client uses; a call on the queue uses it up to and
with its return. -/
def uses (t : Thread.State T α) : Thread.Label T α → List Object
  | .post _ _ => [.thread, .workQueue]
  | .client _ => [.workQueue]
  | .stop _ => [.thread, .reactor]
  | .wait _ => [.reactor]
  | .run =>
      match t.phase with
      | .reactor (.workQueue :: _) => [.reactor, .workQueue]
      -- `reactor_unregister`, and the first `fixed_queue_try_dequeue`
      | .reactor _ => [.reactor, .thread, .workQueue]
      | .dequeuing _ | .posting _ _ => [.workQueue]
      | .draining _ => [.thread, .workQueue]
      | .executing _ _ | .returned _ => []
  | .itemPosts _ => [.thread, .workQueue]
  | .itemStops => [.thread, .reactor]
  | .itemReturns =>
      match t.phase with
      | .executing _ (.drain _) => [.thread, .workQueue]
      | _ => [.reactor]

def byItem : Thread.Label T α → Bool
  | .itemPosts _ | .itemStops | .itemReturns => true
  | _ => false

def executing : Phase α → Bool
  | .executing _ _ => true
  | _ => false

namespace Owner

def inCall : Owner → Bool
  | stop | readJoined _ | joining _ | freeQueue false | freeReactor false | freeThread false => true
  | _ => false

def isOpen : Owner → Bool
  | holding | readJoined false | joining false => true
  | _ => false

def freeing : Owner → Bool
  | stop | readJoined true | joining true => true
  | freeQueue false | freeReactor false | freeThread false | returned false => true
  | _ => false

def afterJoin (freeing : Bool) : Owner := if freeing then freeQueue false else holding

end Owner

namespace State

variable [DecidableEq T] [DecidableEq α]

def access (s : State T α) (objects : List Object) (next : Except Fault (State T α)) :
    Except Fault (State T α) :=
  if ∀ o ∈ objects, s.alive o = true then next else .error .released

def release (s : State T α) (objects : List Object) : State T α :=
  { s with alive := fun o => s.alive o && decide (o ∉ objects) }

def busy (s : State T α) : Bool := s.inItem && s.owner.inCall

def threadStep (s : State T α) (l : Thread.Label T α) : Except Fault (State T α) :=
  match s.thread.step l with
  | .ok thread => s.access (uses s.thread l) (.ok { s with thread := thread })
  | .error .blocked => s.access (uses s.thread l) (.error .blocked)
  | .error .assertion => s.access (uses s.thread l) (.error .assertion)
  | .error .notEnabled => .error .notEnabled

/-- The new thread goes on in `run_thread`, up to its `semaphore_post`. -/
def workerStep (s : State T α) : Except Fault (State T α) :=
  match s.worker with
  | .reportError => s.access [.start] (.ok { s with error := true, worker := .postError })
  | .postError =>
      s.access [.start, .startSem]
        (.ok { s with startCount := s.startCount + 1, worker := .failed })
  | .setTid => s.access [.thread] (.ok { s with worker := .postStarted })
  | .postStarted =>
      s.access [.start, .startSem]
        (.ok { s with startCount := s.startCount + 1, worker := .running })
  | .absent | .setName | .failed | .running => .error .notEnabled

def ownerStep (s : State T α) : Except Fault (State T α) :=
  match s.owner with
  | .wait =>
      s.access [.startSem]
        (if s.startCount = 0 then .error .blocked
        else .ok { s with startCount := s.startCount - 1, owner := .freeSem })
  | .freeSem => s.access [.startSem] (.ok ({ s with owner := .checkError }.release [.startSem]))
  | .checkError =>
      s.access [.start]
        (if s.error then .ok { s with owner := .freeQueue true }
        else .ok ({ s with owner := .holding }.release [.start]))
  | .stop =>
      s.access [.thread, .reactor]
        (.ok { s with
          thread := { s.thread with stopped := true }
          owner := .readJoined true })
  | .readJoined freeing =>
      s.access [.thread]
        (if s.isJoined then .ok { s with owner := .afterJoin freeing }
        else
          .ok { s with
            isJoined := true
            selfJoined := s.selfJoined || s.inItem
            owner := .joining freeing })
  | .joining freeing =>
      if s.inItem ∨ s.thread.phase.hasReturned then .ok { s with owner := .afterJoin freeing }
      else .error .blocked
  | .freeQueue error =>
      s.access [.thread, .workQueue]
        (.ok ({ s with
          freed := s.thread.workQueue.list.map SharedQueue.Node.data
          owner := .freeReactor error }.release [.workQueue]))
  | .freeReactor error =>
      s.access [.thread, .reactor]
        (.ok ({ s with owner := .freeThread error }.release [.reactor]))
  | .freeThread error =>
      s.access [.thread] (.ok ({ s with owner := .returned error }.release [.thread, .start]))
  | .create | .holding | .returned _ => .error .notEnabled

def step (s : State T α) : Label T α → Except Fault (State T α)
  | .create created =>
      if s.owner = .create then
        .ok { s with owner := .wait, worker := if created then .setName else .absent }
      else .error .notEnabled
  | .setName named =>
      if s.worker = .setName then
        s.access [.start, .thread]
          (.ok { s with worker := if named then .setTid else .reportError })
      else .error .notEnabled
  | .worker => s.workerStep
  | .thread l =>
      if s.worker = .running ∧ ¬ (s.busy ∧ byItem l) then s.threadStep l else .error .notEnabled
  | .join inItem =>
      if s.owner = .holding ∧ (inItem → executing s.thread.phase) then
        .ok { s with owner := .readJoined false, inItem := inItem }
      else .error .notEnabled
  | .free inItem =>
      if s.owner = .holding ∧ (inItem → executing s.thread.phase) then
        .ok { s with owner := .stop, inItem := inItem }
      else .error .notEnabled
  | .owner => s.ownerStep

end State

/-- Other callers have the thread only between its construction and `thread_free`, which is
called when they are in none of their calls. -/
def Contract (s : State T α) : Label T α → Prop
  | .thread (.post _ _) | .thread (.stop _) => s.owner.isOpen = true
  | .free _ => ∀ t, (s.thread.workQueue.pc (some t)).isIdle = true
  | _ => True

instance [Fintype T] (s : State T α) (l : Label T α) : Decidable (Contract s l) :=
  match l with
  | .thread (.post _ _) => inferInstanceAs (Decidable (_ = _))
  | .thread (.stop _) => inferInstanceAs (Decidable (_ = _))
  | .thread (.client _) | .thread (.wait _) | .thread .run | .thread (.itemPosts _)
  | .thread .itemStops | .thread .itemReturns => isTrue trivial
  | .free _ => inferInstanceAs (Decidable (∀ _, _ = _))
  | .create _ | .setName _ | .worker | .join _ | .owner => isTrue trivial

def start (capacity : UInt64) : State T α where
  thread := threadNewSized capacity
  owner := .create
  worker := .absent
  alive _ := true
  startCount := 0
  error := false
  isJoined := false
  inItem := false
  selfJoined := false
  freed := []

end Lifetime

end Thread

end Osi
