import Osi.FixedQueue.Basic
import Osi.Transition.Run
import Osi.Transition.Threads
import Mathlib.Data.Multiset.AddSub

/-!
# The fixed queue under any interleaving

Any number of threads run the operations of `fixed_queue.c` on one queue, and
their semaphore steps, lock steps and list steps interleave freely. The two
semaphores are updated outside the lock and the list inside it, so the counters
agree with the list only up to the threads that are half way through an
operation; the invariant counts those.

A node of the list carries the number of elements that were appended before it,
so that the elements can be told apart and compared by age. `appended` and
`removed` record what the operations have done; no step looks at them.
-/

namespace Osi

namespace SharedQueue

open Transition

structure Node (α : Type*) where
  stamp : ℕ
  data : α
  deriving DecidableEq, Repr

def listContains {α : Type*} [DecidableEq α] (list : List (Node α)) (x : α) : Bool :=
  list.any fun node => node.data = x

/-- `list_remove`: the first node with the data goes, and the result says
whether there was one. -/
def listRemove {α : Type*} [DecidableEq α] (list : List (Node α)) (x : α) :
    List (Node α) × Bool :=
  (list.eraseP fun node => node.data = x, listContains list x)

inductive Op (α : Type*)
  | enqueue (x : α)
  | tryEnqueue (x : α)
  | dequeue
  | tryDequeue
  | tryRemoveFromQueue (x : α)
  deriving DecidableEq, Repr

/-- What a call returns: nothing, a `bool`, or a pointer. -/
inductive Result (α : Type*)
  | done
  | flag (b : Bool)
  | data (x : Option α)
  deriving DecidableEq, Repr

/-- Where a thread is; `r` is what the call will return. -/
inductive Pc (α : Type*)
  /-- no call in progress; the result of the last one -/
  | idle (r : Result α)
  | enqueueWait (x : α)
  | enqueueTryWait (x : α)
  | enqueueLock (x : α) (r : Result α)
  | enqueueAppend (x : α) (r : Result α)
  | enqueueUnlock (r : Result α)
  | enqueuePost (r : Result α)
  | dequeueWait
  | dequeueTryWait
  | dequeueLock
  | dequeueRemove
  | dequeueUnlock (x : α)
  | dequeuePost (x : α)
  | removeLock (x : α)
  | removeContains (x : α)
  | removeTryWait (x : α)
  | removeRemove (x : α)
  | removeUnlock (x : α) (removed : Bool)
  | removePost (x : α)
  deriving DecidableEq, Repr

inductive Fault
  /-- an `assert` of the code fails -/
  | assertion
  /-- the thread waits on a semaphore or on the lock -/
  | blocked
  /-- the thread is not at the point of the program the label belongs to -/
  | notEnabled
  deriving DecidableEq, Repr

inductive Label (T α : Type*)
  | call (t : T) (op : Op α)
  | run (t : T)
  deriving DecidableEq, Repr

structure State (T α : Type*) where
  list : List (Node α)
  enqueueSem : ℕ
  dequeueSem : ℕ
  lock : Option T
  pc : T → Pc α
  appended : List α
  removed : List α

namespace Op

def entry {α : Type*} : Op α → Pc α
  | enqueue x => .enqueueWait x
  | tryEnqueue x => .enqueueTryWait x
  | dequeue => .dequeueWait
  | tryDequeue => .dequeueTryWait
  | tryRemoveFromQueue x => .removeLock x

end Op

namespace State

variable {T α : Type*}

def init (capacity : UInt64) : State T α where
  list := []
  enqueueSem := semaphoreNew capacity.toUInt32
  dequeueSem := semaphoreNew 0
  lock := none
  pc _ := .idle .done
  appended := []
  removed := []

variable [DecidableEq T]

def goto (s : State T α) (t : T) (v : Pc α) : State T α :=
  { s with pc := Function.update s.pc t v }

def acquire (s : State T α) (t : T) (v : Pc α) : Except Fault (State T α) :=
  match s.lock with
  | none => .ok ({ s with lock := some t }.goto t v)
  | some _ => .error .blocked

def release (s : State T α) (t : T) (v : Pc α) : State T α :=
  { s with lock := none }.goto t v

def append (s : State T α) (x : α) : State T α :=
  { s with
    list := s.list ++ [⟨s.appended.length, x⟩]
    appended := s.appended ++ [x] }

variable [DecidableEq α]

def advance (s : State T α) (t : T) : Except Fault (State T α) :=
  match s.pc t with
  | .idle _ => .error .notEnabled
  | .enqueueWait x =>
      if s.enqueueSem = 0 then .error .blocked
      else .ok ({ s with enqueueSem := s.enqueueSem - 1 }.goto t (.enqueueLock x .done))
  | .enqueueTryWait x =>
      if s.enqueueSem = 0 then .ok (s.goto t (.idle (.flag false)))
      else
        .ok ({ s with enqueueSem := s.enqueueSem - 1 }.goto t
          (.enqueueLock x (.flag true)))
  | .enqueueLock x r => s.acquire t (.enqueueAppend x r)
  | .enqueueAppend x r => .ok ((s.append x).goto t (.enqueueUnlock r))
  | .enqueueUnlock r => .ok (s.release t (.enqueuePost r))
  | .enqueuePost r =>
      .ok ({ s with dequeueSem := s.dequeueSem + 1 }.goto t (.idle r))
  | .dequeueWait =>
      if s.dequeueSem = 0 then .error .blocked
      else .ok ({ s with dequeueSem := s.dequeueSem - 1 }.goto t .dequeueLock)
  | .dequeueTryWait =>
      if s.dequeueSem = 0 then .ok (s.goto t (.idle (.data none)))
      else .ok ({ s with dequeueSem := s.dequeueSem - 1 }.goto t .dequeueLock)
  | .dequeueLock => s.acquire t .dequeueRemove
  | .dequeueRemove =>
      match s.list with
      -- `list_front` asserts that the list is not empty
      | [] => .error .assertion
      | front :: _ =>
          .ok ({ s with
            list := (listRemove s.list front.data).1
            removed := s.removed ++ [front.data] }.goto t (.dequeueUnlock front.data))
  | .dequeueUnlock x => .ok (s.release t (.dequeuePost x))
  | .dequeuePost x =>
      .ok ({ s with enqueueSem := s.enqueueSem + 1 }.goto t (.idle (.data (some x))))
  | .removeLock x => s.acquire t (.removeContains x)
  | .removeContains x =>
      if listContains s.list x then .ok (s.goto t (.removeTryWait x))
      else .ok (s.goto t (.removeUnlock x false))
  | .removeTryWait x =>
      if s.dequeueSem = 0 then .ok (s.goto t (.removeUnlock x false))
      else .ok ({ s with dequeueSem := s.dequeueSem - 1 }.goto t (.removeRemove x))
  | .removeRemove x =>
      match listRemove s.list x with
      | (list, true) =>
          .ok ({ s with list := list, removed := s.removed ++ [x] }.goto t
            (.removeUnlock x true))
      | (_, false) => .error .assertion
  | .removeUnlock x removed =>
      if removed then .ok (s.release t (.removePost x))
      else .ok (s.release t (.idle (.data none)))
  | .removePost x =>
      .ok ({ s with enqueueSem := s.enqueueSem + 1 }.goto t (.idle (.data (some x))))

def step (s : State T α) : Label T α → Except Fault (State T α)
  | .call t op =>
      match s.pc t with
      | .idle _ => .ok (s.goto t op.entry)
      | _ => .error .notEnabled
  | .run t => s.advance t

end State

/-! ## The list -/

section List

variable {α : Type*} [DecidableEq α] {list : List (Node α)} {x : α}

theorem listContains_iff : listContains list x = true ↔ x ∈ list.map Node.data := by
  simp [listContains]

theorem listRemove_sublist (list : List (Node α)) (x : α) :
    (listRemove list x).1.Sublist list :=
  List.eraseP_sublist

theorem listRemove_front (front : Node α) (rest : List (Node α)) :
    (listRemove (front :: rest) front.data).1 = rest := by
  simp [listRemove]

theorem length_listRemove (h : x ∈ list.map Node.data) :
    (listRemove list x).1.length + 1 = list.length := by
  obtain ⟨node, hnode, hx⟩ := List.mem_map.mp h
  have hlen := List.length_eraseP_of_mem hnode
    (p := fun node => decide (node.data = x)) (by simpa using hx)
  have hpos := List.length_pos_of_mem hnode
  rw [listRemove, hlen]
  omega

theorem map_listRemove (list : List (Node α)) (x : α) :
    (listRemove list x).1.map Node.data = (list.map Node.data).erase x := by
  have hpred : (fun node : Node α => decide (node.data = x)) =
      (fun y => x == y) ∘ Node.data := by
    funext node
    exact decide_eq_decide.mpr eq_comm
  rw [List.erase_eq_eraseP, List.eraseP_map, ← hpred]
  rfl

end List

end SharedQueue

end Osi
