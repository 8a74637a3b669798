import Osi.Memory.Heap
import Osi.Transition.Run

/-!
# The reactor

`run_reactor` waits for events, finds for each the object it was registered with and
calls back. Meanwhile other threads register and unregister objects. An event carries
only the address of its object. `reactor_unregister` therefore puts the address on the
invalidation list, which `run_reactor` looks through before it touches an object, and
then waits for the lock of the object before it releases it. Called from a callback it
only raises the flag `object_removed`, and `run_reactor` releases the object. It tells
the two apart by `is_running` and `run_thread`, which here are the two labels: a call
that is not made by a callback is one of another thread.

An address may be used again by a later registration. To tell the registrations at one
address apart each has a generation; no branch of the code depends on it.

`epoll_wait` reports any of the objects that were in the epoll set at some time during
the call, each at most once. Which of them are ready, and whether `epoll_ctl` can add a
descriptor, is not determined by the model. A registration made by a callback is one
made by some thread while the callback runs.
-/

namespace Osi

namespace Reactor

open Memory

def maxEvents : ℕ := 64

/-- A registration: the address of its object, and which of the registrations at this
address it is. -/
structure Event where
  addr : Addr
  generation : ℕ
  deriving DecidableEq, Repr

/-- An event that `epoll_wait` reports. `readable` stands for any of `EPOLLIN`, `EPOLLHUP`,
`EPOLLRDHUP` and `EPOLLERR`, `writable` for `EPOLLOUT`. -/
structure Report where
  event : Event
  readable : Bool
  writable : Bool
  deriving DecidableEq, Repr

/-- The registrations in what `epoll_wait` reports; `none` is the descriptor that
`reactor_stop` writes to. -/
def eventsOf (reports : List (Option Report)) : List Event :=
  reports.filterMap fun report => report.map Report.event

/-- `reactor_object_t`. The lock is held by `run_reactor`, which is `none`, or by another
thread. The last two fields say whether there is such a callback. -/
structure Object (T : Type*) where
  generation : ℕ
  lock : Option (Option T)
  readReady : Bool
  writeReady : Bool
  deriving DecidableEq, Repr

/-- Where `run_reactor` is, with the reports that are still to be handled. -/
inductive Loop
  /-- not running -/
  | idle
  /-- at the head of the loop, before it locks the list -/
  | next
  /-- in `list_clear` -/
  | clear
  | unlockCleared
  | beforeWait
  /-- in `epoll_wait`, with what this call may report -/
  | waiting (reportable : List Event)
  /-- before the next report -/
  | events (rest : List (Option Report))
  /-- in `list_contains` -/
  | contains (report : Report) (rest : List (Option Report))
  /-- the object is on the list -/
  | skip (rest : List (Option Report))
  | lockObject (report : Report) (rest : List (Option Report))
  | unlockList (report : Report) (rest : List (Option Report))
  | beforeRead (report : Report) (rest : List (Option Report))
  /-- in the callback `read_ready` -/
  | inRead (report : Report) (rest : List (Option Report))
  | beforeWrite (report : Report) (rest : List (Option Report))
  /-- in the callback `write_ready` -/
  | inWrite (report : Report) (rest : List (Option Report))
  | unlockObject (report : Report) (rest : List (Option Report))
  /-- before it tests whether the object was removed -/
  | afterUnlock (report : Report) (rest : List (Option Report))
  deriving DecidableEq, Repr

def Loop.inCallback : Loop → Bool
  | .inRead _ _ => true
  | .inWrite _ _ => true
  | _ => false

def Loop.served : Loop → Option Event
  | .lockObject report _ => some report.event
  | .unlockList report _ => some report.event
  | .beforeRead report _ => some report.event
  | .inRead report _ => some report.event
  | .beforeWrite report _ => some report.event
  | .inWrite report _ => some report.event
  | .unlockObject report _ => some report.event
  | .afterUnlock report _ => some report.event
  | _ => none

def Loop.added (loop : Loop) (e : Event) : Loop :=
  match loop with
  | .waiting reportable => .waiting (reportable ++ [e])
  | _ => loop

inductive Pc
  /-- outside of the reactor's functions -/
  | idle
  /-- `reactor_register`: before `EPOLL_CTL_ADD`, and after it has failed -/
  | registerAdd (e : Event)
  | registerFail (e : Event)
  /-- `reactor_unregister`, statement by statement -/
  | unregisterDel (e : Event)
  | unregisterLockList (e : Event)
  | unregisterAppend (e : Event)
  | unregisterUnlockList (e : Event)
  | unregisterLockObject (e : Event)
  | unregisterUnlockObject (e : Event)
  | unregisterFree (e : Event)
  deriving DecidableEq, Repr

inductive Action (T : Type*)
  /-- `run_reactor` uses an object for an event -/
  | accessed (event object : ℕ)
  /-- `run_reactor` calls back an object for an event -/
  | invoked (event object : ℕ)
  /-- `reactor_unregister` returns, on the thread of `run_reactor` if that is `none` -/
  | unregistered (who : Option T) (object : ℕ)
  /-- the object is destroyed and freed -/
  | freed (who : Option T) (object : ℕ)
  deriving DecidableEq, Repr

/-- A `reactor_t` with its objects, `run_reactor` and the other threads `T`. `handles` are
the objects that clients have got from `reactor_register` and not passed to
`reactor_unregister`, and `history` is what happened so far. -/
structure State (T : Type*) where
  mem : Heap (Object T)
  epoll : List Event
  invalidationList : List Addr
  listLock : Option (Option T)
  objectRemoved : Bool
  iterations : ℕ
  i : ℕ
  loop : Loop
  pc : T → Pc
  handles : List Event
  nextGeneration : ℕ
  history : List (Action T)

inductive Label (T : Type*)
  /-- `run_reactor` is called; `0` iterations are no bound -/
  | start (iterations : ℕ)
  /-- `epoll_wait` returns events -/
  | wait (reports : List (Option Report))
  /-- `epoll_wait` returns `-1`, for a signal or an error -/
  | waitFails (interrupted : Bool)
  /-- `run_reactor` goes on, or the callback returns to it -/
  | run
  /-- the callback calls `reactor_unregister` -/
  | callbackUnregisters (e : Event)
  /-- a thread calls `reactor_register`; `p` is what `osi_calloc` returns -/
  | register (t : T) (p : Addr) (readReady writeReady : Bool)
  /-- `EPOLL_CTL_ADD` returns -/
  | add (t : T) (success : Bool)
  /-- a thread calls `reactor_unregister` -/
  | unregister (t : T) (e : Event)
  /-- a thread goes on -/
  | thread (t : T)
  deriving DecidableEq, Repr

/-- Why a step is not taken. -/
inductive Fault
  /-- a lock is held by another -/
  | blocked
  /-- there is no such step here -/
  | notEnabled
  /-- an object is used that is not allocated -/
  | useAfterFree
  deriving DecidableEq, Repr

variable {T : Type*}

def reactorNew : State T where
  mem := fun _ => none
  epoll := []
  invalidationList := []
  listLock := none
  objectRemoved := false
  iterations := 0
  i := 0
  loop := .idle
  pc := fun _ => .idle
  handles := []
  nextGeneration := 0
  history := []

namespace State

def withObject (s : State T) (p : Addr) (k : Object T → Except Fault (State T)) :
    Except Fault (State T) :=
  match load s.mem p with
  | none => .error .useAfterFree
  | some object => k object

def setLock (s : State T) (p : Addr) (object : Object T) (lock : Option (Option T)) : State T :=
  { s with mem := Function.update s.mem p (some { object with lock := lock }) }

def release (s : State T) (p : Addr) : State T :=
  { s with mem := Function.update s.mem p none }

def record (s : State T) (actions : List (Action T)) : State T :=
  { s with history := s.history ++ actions }

def callBack (s : State T) (e : Event) (wanted : Bool) (callback : Object T → Bool)
    (inside after : Loop) : Except Fault (State T) :=
  if wanted then
    s.withObject e.addr fun object =>
      if callback object then
        .ok (({ s with loop := inside }).record
          [.accessed e.generation object.generation, .invoked e.generation object.generation])
      else
        .ok (({ s with loop := after }).record [.accessed e.generation object.generation])
  else .ok { s with loop := after }

def runReactor (s : State T) : Except Fault (State T) :=
  match s.loop with
  | .idle => .error .notEnabled
  | .next =>
      if s.iterations = 0 ∨ s.i < s.iterations then
        if s.listLock.isNone then .ok { s with listLock := some none, loop := .clear }
        else .error .blocked
      else .ok { s with loop := .idle }
  | .clear => .ok { s with invalidationList := [], loop := .unlockCleared }
  | .unlockCleared => .ok { s with listLock := none, loop := .beforeWait }
  | .beforeWait => .ok { s with loop := .waiting s.epoll }
  | .waiting _ => .error .notEnabled
  | .events [] => .ok { s with i := s.i + 1, loop := .next }
  | .events (none :: _) => .ok { s with loop := .idle }
  | .events (some report :: rest) =>
      if s.listLock.isNone then
        .ok { s with listLock := some none, loop := .contains report rest }
      else .error .blocked
  | .contains report rest =>
      if report.event.addr ∈ s.invalidationList then .ok { s with loop := .skip rest }
      else .ok { s with loop := .lockObject report rest }
  | .skip rest => .ok { s with listLock := none, loop := .events rest }
  | .lockObject report rest =>
      s.withObject report.event.addr fun object =>
        if object.lock.isNone then
          .ok (({ s with loop := .unlockList report rest }.setLock report.event.addr object
            (some none)).record [.accessed report.event.generation object.generation])
        else .error .blocked
  | .unlockList report rest => .ok { s with listLock := none, loop := .beforeRead report rest }
  | .beforeRead report rest =>
      { s with objectRemoved := false }.callBack report.event report.readable Object.readReady
        (.inRead report rest) (.beforeWrite report rest)
  | .inRead report rest => .ok { s with loop := .beforeWrite report rest }
  | .beforeWrite report rest =>
      s.callBack report.event (!s.objectRemoved && report.writable) Object.writeReady
        (.inWrite report rest) (.unlockObject report rest)
  | .inWrite report rest => .ok { s with loop := .unlockObject report rest }
  | .unlockObject report rest =>
      s.withObject report.event.addr fun object =>
        .ok (({ s with loop := .afterUnlock report rest }.setLock report.event.addr object
          none).record [.accessed report.event.generation object.generation])
  | .afterUnlock report rest =>
      if s.objectRemoved then
        s.withObject report.event.addr fun object =>
          .ok (({ s with loop := .events rest }.release report.event.addr).record
            [.freed none object.generation])
      else .ok { s with loop := .events rest }

variable [DecidableEq T]

def goto (s : State T) (t : T) (pc : Pc) : State T :=
  { s with pc := Function.update s.pc t pc }

def runThread (s : State T) (t : T) : Except Fault (State T) :=
  match s.pc t with
  | .idle => .error .notEnabled
  | .registerAdd _ => .error .notEnabled
  | .registerFail e =>
      s.withObject e.addr fun object =>
        .ok (((s.release e.addr).goto t .idle).record [.freed (some t) object.generation])
  | .unregisterDel e =>
      s.withObject e.addr fun _ =>
        .ok ({ s with epoll := s.epoll.filter (· ≠ e) }.goto t (.unregisterLockList e))
  | .unregisterLockList e =>
      if s.listLock.isNone then
        .ok ({ s with listLock := some (some t) }.goto t (.unregisterAppend e))
      else .error .blocked
  | .unregisterAppend e =>
      .ok ({ s with invalidationList := s.invalidationList ++ [e.addr] }.goto t
        (.unregisterUnlockList e))
  | .unregisterUnlockList e =>
      .ok ({ s with listLock := none }.goto t (.unregisterLockObject e))
  | .unregisterLockObject e =>
      s.withObject e.addr fun object =>
        if object.lock.isNone then
          .ok ((s.setLock e.addr object (some (some t))).goto t (.unregisterUnlockObject e))
        else .error .blocked
  | .unregisterUnlockObject e =>
      s.withObject e.addr fun object =>
        .ok ((s.setLock e.addr object none).goto t (.unregisterFree e))
  | .unregisterFree e =>
      s.withObject e.addr fun object =>
        .ok (((s.release e.addr).goto t .idle).record
          [.freed (some t) object.generation, .unregistered (some t) e.generation])

def step (s : State T) : Label T → Except Fault (State T)
  | .start iterations =>
      match s.loop with
      | .idle => .ok { s with iterations := iterations, i := 0, loop := .next }
      | _ => .error .notEnabled
  | .wait reports =>
      match s.loop with
      | .waiting reportable =>
          if reports.length ≤ maxEvents ∧ (eventsOf reports).Nodup ∧
              ∀ e ∈ eventsOf reports, e ∈ reportable then
            .ok { s with loop := .events reports }
          else .error .notEnabled
      | _ => .error .notEnabled
  | .waitFails interrupted =>
      match s.loop with
      | .waiting _ => .ok { s with loop := if interrupted then .beforeWait else .idle }
      | _ => .error .notEnabled
  | .run => s.runReactor
  | .callbackUnregisters e =>
      if s.loop.inCallback ∧ e ∈ s.handles then
        s.withObject e.addr fun _ =>
          .ok ({ s with
            handles := s.handles.filter (· ≠ e)
            epoll := s.epoll.filter (· ≠ e)
            objectRemoved := true }.record [.unregistered none e.generation])
      else .error .notEnabled
  | .register t p readReady writeReady =>
      match s.pc t, alloc s.mem p ⟨s.nextGeneration, none, readReady, writeReady⟩ with
      | .idle, some mem =>
          .ok ({ s with mem := mem, nextGeneration := s.nextGeneration + 1 }.goto t
            (.registerAdd ⟨p, s.nextGeneration⟩))
      | _, _ => .error .notEnabled
  | .add t success =>
      match s.pc t with
      | .registerAdd e =>
          if success then
            .ok ({ s with
              epoll := s.epoll ++ [e]
              handles := s.handles ++ [e]
              loop := s.loop.added e }.goto t .idle)
          else .ok (s.goto t (.registerFail e))
      | _ => .error .notEnabled
  | .unregister t e =>
      match s.pc t with
      | .idle =>
          if e ∈ s.handles then
            .ok ({ s with handles := s.handles.filter (· ≠ e) }.goto t (.unregisterDel e))
          else .error .notEnabled
      | _ => .error .notEnabled
  | .thread t => s.runThread t

end State

end Reactor

end Osi
