import Osi.Memory.Heap
import Osi.Transition.Run
import Osi.Transition.Threads

/-!
# Futures

`future.c` hands one pointer from the thread that calls `future_ready` to the thread
that calls `future_await`, through a future, its semaphore and the semaphore's
eventfd. `future_await` releases all three before it returns, while `future_ready`
may just have written to the eventfd. Every access to the future, the semaphore or
the eventfd is a step of its own here, and those of any number of threads and futures
interleave freely.

A future is known by the number of futures that were made before it. Its memory is
never used again once it is released, and an access to it is a fault. In a run
without such a fault it makes no difference which addresses and descriptors are used
again for others.
-/

namespace Osi

namespace Future

open Memory (Addr)

/-- A `future_t` with its `semaphore_t` and its eventfd: what is allocated, what is
stored in the future, and the counter of the eventfd while it is open. -/
structure Object where
  readyCanBeCalled : Bool
  /-- `semaphore` is not `NULL` -/
  hasSemaphore : Bool
  result : Addr
  allocated : Bool
  semaphoreAllocated : Bool
  fd : Option ℕ
  deriving DecidableEq, Repr

def Object.calloc : Object where
  readyCanBeCalled := false
  hasSemaphore := false
  result := 0
  allocated := true
  semaphoreAllocated := false
  fd := none

inductive CreatePoint
  /-- `osi_malloc` of `semaphore_new` -/
  | semaphore
  /-- `eventfd` of `semaphore_new` -/
  | eventfd
  /-- the fields of the future are set -/
  | ready
  /-- `future_free` of a future without a semaphore -/
  | fail
  /-- the fields of an immediate future are set -/
  | immediate (value : Addr)
  deriving DecidableEq, Repr

inductive ReadyPoint
  | check
  | flag
  | result
  /-- `future->semaphore` is read -/
  | semaphore
  /-- `semaphore->fd` is read -/
  | fd
  /-- `eventfd_write` -/
  | write
  deriving DecidableEq, Repr

inductive AwaitPoint
  | check
  | semaphore
  | fd
  /-- `eventfd_read` -/
  | read
  | result
  deriving DecidableEq, Repr

/-- What the `future_free` of `future_await` is about to do. -/
inductive FreePoint
  | semaphore
  | close
  | releaseSemaphore
  | release
  deriving DecidableEq, Repr

inductive Op
  | new
  | newImmediate (value : Addr)
  | ready (n : ℕ) (value : Addr)
  | await (n : ℕ)
  deriving DecidableEq, Repr

inductive Result
  | done
  | future (n : ℕ)
  | null
  | value (value : Addr)
  deriving DecidableEq, Repr

inductive Pc
  /-- no call in progress; the result of the last one -/
  | idle (r : Result)
  | create (n : ℕ) (k : CreatePoint)
  | ready (n : ℕ) (value : Addr) (k : ReadyPoint)
  | await (n : ℕ) (k : AwaitPoint)
  /-- in `future_free`, with the result that will be returned -/
  | free (n : ℕ) (value : Addr) (k : FreePoint)
  deriving DecidableEq, Repr

inductive Fault
  /-- access to memory that is not allocated -/
  | released
  /-- a system call on a descriptor that is not open -/
  | closed
  | assertion
  /-- the thread sleeps in `eventfd_read` -/
  | blocked
  /-- the thread is not at the point of the program the label belongs to -/
  | notEnabled
  deriving DecidableEq, Repr

inductive Label (T : Type*)
  | call (t : T) (op : Op)
  | run (t : T)
  /-- the call of `eventfd` in `semaphore_new` fails -/
  | fail (t : T)
  deriving DecidableEq, Repr

/-- `futures` and `immediates` are what the constructors have returned, the latter with
their values, `readied` and `awaits` the calls of `future_ready` and `future_await`, and
`awaited` what `future_await` has returned; no step looks at them. -/
structure State (T : Type*) where
  objects : ℕ → Option Object
  next : ℕ
  pc : T → Pc
  futures : List ℕ
  immediates : List (ℕ × Addr)
  readied : List (ℕ × Addr)
  awaits : List ℕ
  awaited : List (ℕ × Addr)

namespace State

variable {T : Type*}

def init : State T where
  objects _ := none
  next := 0
  pc _ := .idle .done
  futures := []
  immediates := []
  readied := []
  awaits := []
  awaited := []

def future (s : State T) (n : ℕ) : Except Fault Object :=
  match s.objects n with
  | some o => if o.allocated then .ok o else .error .released
  | none => .error .released

def semaphore (s : State T) (n : ℕ) : Except Fault Object :=
  match s.objects n with
  | some o => if o.semaphoreAllocated then .ok o else .error .released
  | none => .error .released

/-- A system call on the eventfd, which is given its counter. -/
def onEventfd (s : State T) (n : ℕ) : Except Fault (Object × ℕ) :=
  match s.objects n with
  | some o =>
      match o.fd with
      | some counter => .ok (o, counter)
      | none => .error .closed
  | none => .error .closed

variable [DecidableEq T]

def goto (s : State T) (t : T) (v : Pc) : State T :=
  { s with pc := Function.update s.pc t v }

def set (s : State T) (n : ℕ) (o : Object) : State T :=
  { s with objects := Function.update s.objects n (some o) }

def calloc (s : State T) (t : T) (k : CreatePoint) : State T :=
  { s.set s.next Object.calloc with next := s.next + 1 }.goto t (.create s.next k)

def advanceCreate (s : State T) (t : T) (n : ℕ) : CreatePoint → Except Fault (State T)
  | .semaphore =>
      (s.future n).bind fun o =>
        .ok ((s.set n { o with semaphoreAllocated := true }).goto t (.create n .eventfd))
  | .eventfd =>
      (s.semaphore n).bind fun o =>
        .ok ((s.set n { o with fd := some 0 }).goto t (.create n .ready))
  | .ready =>
      (s.future n).bind fun o =>
        .ok ({ s.set n { o with hasSemaphore := true, readyCanBeCalled := true } with
          futures := s.futures ++ [n] }.goto t (.idle (.future n)))
  | .fail =>
      (s.future n).bind fun o =>
        .ok ((s.set n { o with allocated := false }).goto t (.idle .null))
  | .immediate value =>
      (s.future n).bind fun o =>
        .ok ({ s.set n { o with result := value, readyCanBeCalled := false } with
          immediates := s.immediates ++ [(n, value)] }.goto t (.idle (.future n)))

def advanceReady (s : State T) (t : T) (n : ℕ) (value : Addr) :
    ReadyPoint → Except Fault (State T)
  | .check =>
      (s.future n).bind fun o =>
        if o.readyCanBeCalled then .ok (s.goto t (.ready n value .flag))
        else .error .assertion
  | .flag =>
      (s.future n).bind fun o =>
        .ok ((s.set n { o with readyCanBeCalled := false }).goto t (.ready n value .result))
  | .result =>
      (s.future n).bind fun o =>
        .ok ((s.set n { o with result := value }).goto t (.ready n value .semaphore))
  | .semaphore =>
      (s.future n).bind fun o =>
        if o.hasSemaphore then .ok (s.goto t (.ready n value .fd)) else .error .assertion
  | .fd => (s.semaphore n).bind fun _ => .ok (s.goto t (.ready n value .write))
  | .write =>
      (s.onEventfd n).bind fun (o, counter) =>
        .ok ((s.set n { o with fd := some (counter + 1) }).goto t (.idle .done))

def advanceAwait (s : State T) (t : T) (n : ℕ) : AwaitPoint → Except Fault (State T)
  | .check =>
      (s.future n).bind fun o =>
        if o.hasSemaphore then .ok (s.goto t (.await n .semaphore))
        else .ok (s.goto t (.await n .result))
  | .semaphore =>
      (s.future n).bind fun o =>
        if o.hasSemaphore then .ok (s.goto t (.await n .fd)) else .error .assertion
  | .fd => (s.semaphore n).bind fun _ => .ok (s.goto t (.await n .read))
  | .read =>
      (s.onEventfd n).bind fun (o, counter) =>
        if counter = 0 then .error .blocked
        else .ok ((s.set n { o with fd := some (counter - 1) }).goto t (.await n .result))
  | .result =>
      (s.future n).bind fun o => .ok (s.goto t (.free n o.result .semaphore))

def advanceFree (s : State T) (t : T) (n : ℕ) (value : Addr) :
    FreePoint → Except Fault (State T)
  | .semaphore =>
      (s.future n).bind fun o =>
        if o.hasSemaphore then .ok (s.goto t (.free n value .close))
        else .ok (s.goto t (.free n value .release))
  | .close =>
      (s.semaphore n).bind fun _ => (s.onEventfd n).bind fun (o, _) =>
        .ok ((s.set n { o with fd := none }).goto t (.free n value .releaseSemaphore))
  | .releaseSemaphore =>
      (s.semaphore n).bind fun o =>
        .ok ((s.set n { o with semaphoreAllocated := false }).goto t
          (.free n value .release))
  | .release =>
      (s.future n).bind fun o =>
        .ok ({ s.set n { o with allocated := false } with
          awaited := s.awaited ++ [(n, value)] }.goto t (.idle (.value value)))

def advance (s : State T) (t : T) : Except Fault (State T) :=
  match s.pc t with
  | .idle _ => .error .notEnabled
  | .create n k => s.advanceCreate t n k
  | .ready n value k => s.advanceReady t n value k
  | .await n k => s.advanceAwait t n k
  | .free n value k => s.advanceFree t n value k

def enter (s : State T) (t : T) : Op → State T
  | .new => s.calloc t .semaphore
  | .newImmediate value => s.calloc t (.immediate value)
  | .ready n value =>
      { s with readied := s.readied ++ [(n, value)] }.goto t (.ready n value .check)
  | .await n => { s with awaits := s.awaits ++ [n] }.goto t (.await n .check)

def step (s : State T) : Label T → Except Fault (State T)
  | .call t op =>
      match s.pc t with
      | .idle _ => .ok (s.enter t op)
      | _ => .error .notEnabled
  | .run t => s.advance t
  | .fail t =>
      match s.pc t with
      | .create n .eventfd =>
          -- `semaphore_new` releases its memory and returns `NULL`
          (s.semaphore n).bind fun o =>
            .ok ((s.set n { o with semaphoreAllocated := false }).goto t (.create n .fail))
      | _ => .error .notEnabled

/-- The contract of `future.h`: `future_ready` is called once at most on a future that
`future_new` has returned, and `future_await` once at most on every future. -/
def Contract (s : State T) : Label T → Prop
  | .call _ (.ready n _) => n ∈ s.futures ∧ n ∉ s.readied.map Prod.fst
  | .call _ (.await n) => (n ∈ s.futures ∨ n ∈ s.immediates.map Prod.fst) ∧ n ∉ s.awaits
  | _ => True

instance (s : State T) (l : Label T) : Decidable (Contract s l) :=
  match l with
  | .call _ (.ready _ _) => inferInstanceAs (Decidable (_ ∧ _))
  | .call _ (.await _) => inferInstanceAs (Decidable (_ ∧ _))
  | .call _ .new => isTrue trivial
  | .call _ (.newImmediate _) => isTrue trivial
  | .run _ => isTrue trivial
  | .fail _ => isTrue trivial

end State

end Future

end Osi
