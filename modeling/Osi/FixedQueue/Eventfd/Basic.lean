import Osi.FixedQueue.Interleaving.Runs
import Osi.Semaphore.Atomic
import Osi.Transition.Simulation

/-!
# The fixed queue on its eventfds

`Osi.FixedQueue.Interleaving` takes each call on a semaphore of the queue as one
atomic step on a counter. Here the two semaphores are the eventfds of
`semaphore.c`, and a thread of the queue that calls one of them issues its system
calls one by one, between the system calls and list steps of all other threads.

In the runs in which a `semaphore_wait` that finds no token sleeps, the queue on
its eventfds refines the atomic one. A `semaphore_try_wait` takes effect at its
`eventfd_read`; the `F_SETFL` after it is invisible.
-/

namespace Osi

namespace EventfdQueue

open Transition SharedQueue

inductive Side
  | enqueue
  | dequeue
  deriving DecidableEq, Repr

instance Side.decidableForall (p : Side → Prop) [∀ side, Decidable (p side)] :
    Decidable (∀ side, p side) :=
  decidable_of_iff (p .enqueue ∧ p .dequeue)
    ⟨fun h side => by cases side with | enqueue => exact h.1 | dequeue => exact h.2,
      fun h => ⟨h .enqueue, h .dequeue⟩⟩

structure State (T α : Type*) where
  list : List (Node α)
  sem : Side → Semaphore.State T
  lock : Option T
  pc : T → Pc α
  appended : List α
  removed : List α

/-- The semaphore call that is made at a program point. -/
def semCall {α : Type*} : Pc α → Option (Side × Semaphore.Op)
  | .enqueueWait _ => some (.enqueue, .wait)
  | .enqueueTryWait _ => some (.enqueue, .tryWait)
  | .enqueuePost _ => some (.dequeue, .post)
  | .dequeueWait => some (.dequeue, .wait)
  | .dequeueTryWait => some (.dequeue, .tryWait)
  | .dequeuePost _ => some (.enqueue, .post)
  | .removeTryWait _ => some (.dequeue, .tryWait)
  | .removePost _ => some (.enqueue, .post)
  | _ => none

/-- Where the caller goes when the semaphore call returns `rc`. -/
def afterCall {α : Type*} (rc : Bool) : Pc α → Pc α
  | .enqueueWait x => .enqueueLock x .done
  | .enqueueTryWait x =>
      if rc then .enqueueLock x (.flag true) else .idle (.flag false)
  | .enqueuePost r => .idle r
  | .dequeueWait => .dequeueLock
  | .dequeueTryWait => if rc then .dequeueLock else .idle (.data none)
  | .dequeuePost x => .idle (.data (some x))
  | .removeTryWait x => if rc then .removeRemove x else .removeUnlock x false
  | .removePost x => .idle (.data (some x))
  | v => v

/-- What the semaphore call at a program point returns; `true` stands for nothing. -/
def returned : Semaphore.Pc → Bool
  | .tryRestore _ rc => rc
  | _ => true

def isCall {T α : Type*} : Label T α → Bool
  | .call _ _ => true
  | .run _ => false

def ofSemaphore : Semaphore.Fault → Fault
  | .blocked => .blocked
  | .notEnabled => .notEnabled

namespace State

variable {T α : Type*}

def init (capacity : UInt64) : State T α where
  list := []
  sem
    | .enqueue => .init capacity.toUInt32
    | .dequeue => .init 0
  lock := none
  pc _ := .idle .done
  appended := []
  removed := []

/-- The queue without its semaphores' inner steps: the program points are those of
the queue, and of an eventfd there is only its counter. -/
def plain (s : State T α) : SharedQueue.State T α where
  list := s.list
  enqueueSem := (s.sem .enqueue).counter
  dequeueSem := (s.sem .dequeue).counter
  lock := s.lock
  pc := s.pc
  appended := s.appended
  removed := s.removed

def afterSection (s : State T α) (q : SharedQueue.State T α) : State T α :=
  { s with
    list := q.list
    lock := q.lock
    pc := q.pc
    appended := q.appended
    removed := q.removed }

variable [DecidableEq T]

def goto (s : State T α) (t : T) (v : Pc α) : State T α :=
  { s with pc := Function.update s.pc t v }

def onSemaphore (s : State T α) (side : Side) (l : Semaphore.Label T) :
    Except Fault (State T α) :=
  match (s.sem side).step l with
  | .ok m => .ok { s with sem := Function.update s.sem side m }
  | .error e => .error (ofSemaphore e)

/-- The thread `t` goes on with its call: it enters a semaphore call, issues the
next system call of it, or takes a lock or list step. -/
def advance [DecidableEq α] (s : State T α) (t : T) : Except Fault (State T α) :=
  match semCall (s.pc t) with
  | some (side, op) =>
      match (s.sem side).pc t with
      | .idle => s.onSemaphore side (.call t op)
      | v =>
          match s.onSemaphore side (.run t) with
          | .ok s' =>
              if (s'.sem side).pc t = .idle then
                .ok (s'.goto t (afterCall (returned v) (s.pc t)))
              else .ok s'
          | .error e => .error e
  | none =>
      match s.plain.advance t with
      | .ok q => .ok (s.afterSection q)
      | .error e => .error e

def step [DecidableEq α] (s : State T α) : Label T α → Except Fault (State T α)
  | .call t op =>
      match s.pc t with
      | .idle _ => .ok (s.goto t op.entry)
      | _ => .error .notEnabled
  | .run t => s.advance t

/-- No `eventfd_read` of `semaphore_wait` finds the counter empty while
`O_NONBLOCK` is set. -/
def Patient (s : State T α) : Label T α → Prop
  | .call _ _ => True
  | .run t => ∀ side, (s.sem side).pc t = .waitRead →
      (s.sem side).nonblocking = false ∨ (s.sem side).counter ≠ 0

instance (s : State T α) (l : Label T α) : Decidable (Patient s l) :=
  match l with
  | .call _ _ => isTrue trivial
  | .run t => inferInstanceAs (Decidable (∀ side, (s.sem side).pc t = .waitRead →
      (s.sem side).nonblocking = false ∨ (s.sem side).counter ≠ 0))

end State

end EventfdQueue

end Osi
