import Osi.Memory.Segment
import Osi.Transition.Run

/-!
# Linked lists

A `list_t` keeps its first node, its last node and the number of its nodes. The
functions work on a heap of nodes. Each allocation gets its outcome as an argument:
an address, or nothing if there is no memory. The calls of `free_cb` are recorded;
it does not touch the list. A function is undefined if an assertion fails, if a
node is used that is not allocated, or if it does not return.
-/

namespace Osi

open Memory

namespace LinkedList

/-- `list_t`, without the allocator. `freeCb` says if there is a `free_cb`. -/
structure ListT where
  head : Addr
  tail : Addr
  length : UInt64
  freeCb : Bool
  deriving DecidableEq, Repr

/-- The heap of nodes, the list, and the arguments of the calls of `free_cb`. -/
structure State where
  mem : Heap (Node Addr)
  list : ListT
  calls : List Addr

def listNew (mem : Heap (Node Addr)) (freeCb : Bool) : State where
  mem := mem
  list := { head := 0, tail := 0, length := 0, freeCb := freeCb }
  calls := []

def listIsEmpty (s : State) : Bool := s.list.length = 0

def listBegin (s : State) : Addr := s.list.head

def listNext (s : State) (node : Addr) : Option Addr := do
  if node = 0 then none
  let n ← load s.mem node
  return n.next

/-- `list_insert_after`; `node` is what the allocator returns. -/
def listInsertAfter (s : State) (prevNode data : Addr) (node : Option Addr) :
    Option (State × Bool) := do
  if prevNode = 0 ∨ data = 0 then none
  match node with
  | none => return (s, false)
  | some node =>
    let prev ← load s.mem prevNode
    let mem ← alloc s.mem node { next := prev.next, data := data }
    let mem ← store mem prevNode { prev with next := node }
    let tail := if s.list.tail = prevNode then node else s.list.tail
    return ({ s with
      mem := mem
      list := { s.list with tail := tail, length := s.list.length + 1 } }, true)

def listPrepend (s : State) (data : Addr) (node : Option Addr) : Option (State × Bool) := do
  if data = 0 then none
  match node with
  | none => return (s, false)
  | some node =>
    let mem ← alloc s.mem node { next := s.list.head, data := data }
    let tail := if s.list.tail = 0 then node else s.list.tail
    return ({ s with
      mem := mem
      list := { s.list with head := node, tail := tail, length := s.list.length + 1 } }, true)

def listAppend (s : State) (data : Addr) (node : Option Addr) : Option (State × Bool) := do
  if data = 0 then none
  match node with
  | none => return (s, false)
  | some node =>
    let mem ← alloc s.mem node { next := 0, data := data }
    if s.list.tail = 0 then
      return ({ s with
        mem := mem
        list := { s.list with head := node, tail := node, length := s.list.length + 1 } }, true)
    else
      let last ← load mem s.list.tail
      let mem ← store mem s.list.tail { last with next := node }
      return ({ s with
        mem := mem
        list := { s.list with tail := node, length := s.list.length + 1 } }, true)

def listFreeNode (s : State) (node : Addr) : Option (State × Addr) := do
  if node = 0 then none
  let n ← load s.mem node
  let calls := if s.list.freeCb then s.calls ++ [n.data] else s.calls
  let mem ← free s.mem node
  return ({ mem := mem, list := { s.list with length := s.list.length - 1 }, calls := calls },
    n.next)

/-- A walk over more nodes than there are addresses goes in a circle. -/
def maxNodes : ℕ := 2 ^ 64

def removeLoop : ℕ → State → Addr → Addr → Addr → Option (State × Bool)
  | 0, _, _, _, _ => none
  | fuel + 1, s, prev, node, data => do
    if node = 0 then return (s, false)
    let n ← load s.mem node
    if n.data = data then
      let (s, next) ← listFreeNode s node
      let p ← load s.mem prev
      let mem ← store s.mem prev { p with next := next }
      let tail := if s.list.tail = node then prev else s.list.tail
      return ({ s with mem := mem, list := { s.list with tail := tail } }, true)
    else removeLoop fuel s node n.next data

def listRemove (s : State) (data : Addr) : Option (State × Bool) := do
  if data = 0 then none
  if listIsEmpty s then return (s, false)
  let first ← load s.mem s.list.head
  if first.data = data then
    let (s, next) ← listFreeNode s s.list.head
    let tail := if s.list.tail = s.list.head then next else s.list.tail
    return ({ s with list := { s.list with head := next, tail := tail } }, true)
  else removeLoop maxNodes s s.list.head first.next data

def clearLoop : ℕ → State → Addr → Option State
  | 0, _, _ => none
  | fuel + 1, s, node => do
    if node = 0 then return s
    let (s, next) ← listFreeNode s node
    clearLoop fuel s next

def listClear (s : State) : Option State := do
  let s ← clearLoop maxNodes s s.list.head
  return { s with list := { s.list with head := 0, tail := 0, length := 0 } }

/-! ## Clients -/

structure Client where
  state : State
  returned : List Bool

/-- The calls of a client. A node is found by as many steps from the first one;
`node` is the outcome of the allocation. -/
inductive Label
  | prepend (data : Addr) (node : Option Addr)
  | append (data : Addr) (node : Option Addr)
  | insertAfter (index : ℕ) (data : Addr) (node : Option Addr)
  | remove (data : Addr)
  | clear
  deriving DecidableEq, Repr

/-- Why a call is not made, or does not return. -/
inductive Fault
  /-- the data is `NULL`, there is no such node, or the address that the allocator
  is to return is in use -/
  | notAllowed
  /-- the call fails or does not return -/
  | failed
  deriving DecidableEq, Repr

/-- The call allocates a node, and there is no memory. -/
def Label.allocationFails : Label → Prop
  | .prepend _ node => node = none
  | .append _ node => node = none
  | .insertAfter _ _ node => node = none
  | .remove _ => False
  | .clear => False

def nodeAt (s : State) : ℕ → Option Addr
  | 0 => some (listBegin s)
  | index + 1 => (nodeAt s index).bind (listNext s)

/-- The address is not `NULL`, and nothing is allocated there. -/
def fresh (s : State) (node : Addr) : Bool := node ≠ 0 ∧ (s.mem node).isNone

/-- The function that a call is of; `list_clear`, which returns nothing, counts as
successful. -/
def call (s : State) : Label → Option (State × Bool)
  | .prepend data node => listPrepend s data node
  | .append data node => listAppend s data node
  | .insertAfter index data node => do
    let prevNode ← nodeAt s index
    listInsertAfter s prevNode data node
  | .remove data => listRemove s data
  | .clear => (listClear s).map fun s => (s, true)

/-- What a client and the allocator keep to: no `NULL` data, a node of the list to
insert after, and an address that is not in use. -/
def allowed (s : State) : Label → Bool
  | .prepend data node => data ≠ 0 ∧ node.all (fresh s)
  | .append data node => data ≠ 0 ∧ node.all (fresh s)
  | .insertAfter index data node =>
      data ≠ 0 ∧ node.all (fresh s) ∧ (nodeAt s index).any (fun prevNode => prevNode ≠ 0)
  | .remove data => data ≠ 0
  | .clear => true

def step (c : Client) (l : Label) : Except Fault Client :=
  if allowed c.state l then
    ((call c.state l).map fun r =>
      { state := r.1, returned := c.returned ++ [r.2] }).elim (.error .failed) .ok
  else .error .notAllowed

def start (mem : Heap (Node Addr)) (freeCb : Bool) : Client where
  state := listNew mem freeCb
  returned := []

end LinkedList

end Osi
