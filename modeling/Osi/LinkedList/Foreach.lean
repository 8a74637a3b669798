import Osi.LinkedList.Basic

/-!
# Iteration with a callback that changes the list

`list_foreach` reads the pointer to the next node before it calls the callback, and
goes on there afterwards. The callback may call the functions of the list, in any
order and as often as it likes, and then returns. All this is a transition system,
whose steps are a round of the loop up to the call, one call of the callback, and its
return.

An address can be used again after its node was removed, and elements can be equal, so
that neither tells the elements apart. `elements` follows the list with a number for
every element that was ever in it; those of the list that the iteration starts with
are numbered in their order, and after them every call of the callback has a number.
The fields below `next` only record; no step of the code looks at them.
-/

namespace Osi

open Memory

namespace LinkedList

structure Element where
  stamp : ℕ
  addr : Addr
  data : Addr
  deriving DecidableEq, Repr

/-- Where `list_foreach` is: at the test of the loop, in the callback, returned at the end
of the list, or returned because the callback returned false. -/
inductive ForeachPc
  | head
  | calling
  | ended
  | stopped
  deriving DecidableEq, Repr

structure Iteration where
  list : State
  pc : ForeachPc
  node : Addr
  next : Addr
  elements : List Element
  /-- the number of the next call -/
  count : ℕ
  /-- the element at `next` when this was read -/
  following : Option ℕ
  /-- the elements that the callback was called for, in this order -/
  visited : List ℕ
  /-- the elements that were removed before the callback was called for them -/
  removedEarly : List ℕ
  /-- the elements that were inserted before the one that was being visited -/
  insertedBefore : List ℕ

inductive Action
  | visit
  | mutate (label : Label)
  | callbackReturns (result : Bool)
  deriving DecidableEq, Repr

inductive ForeachFault
  /-- `list_foreach` is elsewhere, or the call is not allowed -/
  | notEnabled
  /-- a node is read that is not allocated -/
  | freed
  /-- a call of the callback fails -/
  | failed
  deriving DecidableEq, Repr

/-! ## The elements -/

def nodesFrom (mem : Heap (Node Addr)) : ℕ → Addr → List (Addr × Addr)
  | 0, _ => []
  | fuel + 1, p =>
      if p = 0 then []
      else
        match mem p with
        | none => []
        | some n => (p, n.data) :: nodesFrom mem fuel n.next

/-- The elements after a call with the given number. -/
def editElements (elements : List Element) (count : ℕ) : Label → List Element
  | .prepend data (some p) => ⟨count, p, data⟩ :: elements
  | .append data (some p) => elements ++ [⟨count, p, data⟩]
  | .insertAfter index data (some p) => elements.insertIdx (index + 1) ⟨count, p, data⟩
  | .remove data => elements.eraseP fun e => e.data = data
  | .clear => []
  | _ => elements

def removedElements (elements : List Element) : Label → List Element
  | .remove data => (elements.find? fun e => e.data = data).toList
  | .clear => elements
  | _ => []

def standsBefore (l : List ℕ) (x y : ℕ) : Bool :=
  y ∈ l ∧ x ∈ l.takeWhile (· ≠ y)

namespace Iteration

def stamps (it : Iteration) : List ℕ := it.elements.map Element.stamp

def stampAt (it : Iteration) (a : Addr) : Option ℕ :=
  (it.elements.find? fun e => e.addr = a).map Element.stamp

def record (it : Iteration) (l : Label) : Iteration :=
  let elements := editElements it.elements it.count l
  let stamps := elements.map Element.stamp
  { it with
    elements := elements
    count := it.count + 1
    removedEarly := it.removedEarly ++
      ((removedElements it.elements l).map Element.stamp).filter (· ∉ it.visited)
    insertedBefore := it.insertedBefore ++
      if it.visited.getLast?.any (standsBefore stamps it.count) then [it.count] else [] }

def start (list : State) : Iteration where
  list := list
  pc := .head
  node := list.list.head
  next := 0
  elements := (nodesFrom list.mem list.list.length.toNat list.list.head).mapIdx
    fun i n => ⟨i, n.1, n.2⟩
  count := list.list.length.toNat
  following := none
  visited := []
  removedEarly := []
  insertedBefore := []

def visit (it : Iteration) : Except ForeachFault Iteration :=
  if it.node = 0 then .ok { it with pc := .ended }
  else
    match load it.list.mem it.node with
    | none => .error .freed
    | some n =>
        .ok { it with
          pc := .calling
          next := n.next
          following := it.stampAt n.next
          visited := it.visited ++ (it.stampAt it.node).toList }

def step (it : Iteration) : Action → Except ForeachFault Iteration
  | .visit => if it.pc = .head then it.visit else .error .notEnabled
  | .mutate label =>
      if it.pc = .calling ∧ allowed it.list label then
        match call it.list label with
        | none => .error .failed
        | some (list, _) => .ok ({ it with list := list }.record label)
      else .error .notEnabled
  | .callbackReturns result =>
      if it.pc = .calling then
        .ok (if result then { it with pc := .head, node := it.next }
          else { it with pc := .stopped })
      else .error .notEnabled

/-- When the callback returns true, the element that followed the visited one when it was
called has not been removed. -/
def KeepsNext (it : Iteration) : Action → Prop
  | .callbackReturns true => ∀ i ∈ it.following, i ∈ it.stamps
  | _ => True

instance (it : Iteration) (action : Action) : Decidable (it.KeepsNext action) := by
  unfold KeepsNext
  split <;> infer_instance

end Iteration

end LinkedList

end Osi
