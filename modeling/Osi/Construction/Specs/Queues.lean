import Osi.Construction.Queues

/-!
# What queues own

A constructor returns an object with the resources it owns, or `NULL` with none. The
semaphores of a queue count its free places and its elements, and an operation that
finds its semaphore at zero waits.
-/

namespace Osi

namespace Construction

open Ownership
open Ownership.Triple (owned?)

variable {may : Fault → Prop} {o : Outcomes}

/-! ## Memory and lists -/

namespace ListT

def own (list : ListT) : Multiset Res := {list.block} + (list.nodes.map ListNode.block : List Res)

def data (list : ListT) : Multiset Res := (list.nodes.map ListNode.data : List Res)

end ListT

def Semaphore.own (semaphore : Semaphore) : Multiset Res := {semaphore.block} + {semaphore.fd}

namespace FixedQueue

def own (queue : FixedQueue) : Multiset Res :=
  {queue.block} + (owned? ListT.own queue.list + (owned? Semaphore.own queue.enqueueSem +
    owned? Semaphore.own queue.dequeueSem))

def data (queue : FixedQueue) : Multiset Res := owned? ListT.data queue.list

def ownAll (queue : FixedQueue) : Multiset Res := queue.own + queue.data

def length (queue : FixedQueue) : ℕ := queue.list.elim 0 fun list => list.nodes.length

/-- A queue with its list and its two semaphores, which count the places and the elements. -/
structure Consists (queue : FixedQueue) (l : ListT) (e d : Semaphore) : Prop where
  list : queue.list = some l
  enqueueSem : queue.enqueueSem = some e
  dequeueSem : queue.dequeueSem = some d
  places : e.value + l.nodes.length = queue.capacity.toUInt32.toNat
  elements : d.value = l.nodes.length

def Complete (queue : FixedQueue) : Prop := ∃ list e d, queue.Consists list e d

theorem Complete.length_le {queue : FixedQueue} (h : queue.Complete) :
    queue.length ≤ queue.capacity.toNat := by
  obtain ⟨list, e, d, hqueue⟩ := h
  have hplaces := hqueue.places
  have hle : queue.capacity.toUInt32.toNat ≤ queue.capacity.toNat := by
    rw [UInt64.toNat_toUInt32]
    exact Nat.mod_le _ _
  rw [length, hqueue.list, Option.elim_some]
  omega

end FixedQueue

end Construction

end Osi
