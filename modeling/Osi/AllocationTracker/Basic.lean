import Osi.HashMap.Basic
import Osi.Memory.Extent
import Osi.Memory.Heap
import Osi.Transition.Run

/-!
# The allocation tracker

The tracker keeps an `allocation_t` for each block that is handed out, in a hash map
keyed by the pointer that the client gets, and puts a canary on both sides of the
bytes that were requested. The blocks come from an underlying allocator, which has
to know of the canaries (`allocation_tracker_resize_for_canary`).

The functions are undefined where an assertion fails. The records of the tracker are
objects of their own, in a heap apart from the bytes of the clients; memory for them
and for the hash map is always found.
-/

namespace Osi

open Memory

namespace AllocationTracker

structure AllocationT where
  allocatorId : UInt8
  ptr : Addr
  size : UInt64
  freed : Bool
  deriving DecidableEq, Repr

def canary : List UInt8 := [116, 105, 110, 121, 98, 105, 114, 100]

def canarySize : UInt64 := 8

def hashFunctionPointer (key : Addr) : UInt64 := key * 2654435761

/-- The parameters of `allocations`; the keys are compared as pointers. -/
def params : HashMapParams Addr where
  numBucket := 1024
  hashFn := fun key => (hashFunctionPointer key).toNat
  keysAreEqual := fun key key' => key == key'
  numBucket_pos := by decide

/-- The bytes of the memory, the records, and the map with pointers to them, which
is `NULL` before `allocation_tracker_init`. -/
structure Tracker where
  bytes : Addr → UInt8
  records : Heap AllocationT
  allocations : Option (HashMap params Addr)

def init (t : Tracker) : Tracker :=
  if t.allocations.isSome then t else { t with allocations := some HashMap.new }

def memcpy (bytes : Addr → UInt8) (dst : Addr) (src : List UInt8) : Addr → UInt8 :=
  fun a => src.getD (a - dst).toNat (bytes a)

/-- `allocation_entry_freed_checker`, without the message. -/
def allocationEntryFreedChecker (t : Tracker) (entry : HashMapEntry Addr Addr)
    (context : UInt64) : UInt64 × Bool :=
  ((load t.records entry.data).elim context fun allocation =>
    if allocation.freed then context else context + allocation.size, true)

def expectNoAllocations (t : Tracker) : UInt64 :=
  t.allocations.elim 0 fun allocations =>
    allocations.foreach (allocationEntryFreedChecker t) 0

/-- `allocation_tracker_notify_alloc`; `record` is the address of a new
`allocation_t`. -/
def notifyAlloc (t : Tracker) (allocatorId : UInt8) (ptr : Addr) (requestedSize : UInt64)
    (record : Addr) : Option (Tracker × Addr) :=
  match t.allocations with
  | none => some (t, ptr)
  | some allocations =>
    if ptr = 0 then some (t, ptr)
    else do
      let returnPtr := ptr + canarySize
      let (records, allocations, allocation) ←
        match allocations.get returnPtr with
        | some allocation => do
          let a ← load t.records allocation
          if a.freed then some (t.records, allocations, allocation) else none
        | none => do
          let zeroed := { allocatorId := 0, ptr := 0, size := 0, freed := false }
          let records ← alloc t.records record zeroed
          some (records, (allocations.set .succeeding returnPtr record).1, record)
      let records ← store records allocation
        { allocatorId := allocatorId, ptr := returnPtr, size := requestedSize, freed := false }
      let bytes := memcpy t.bytes (returnPtr - canarySize) canary
      let bytes := memcpy bytes (returnPtr + requestedSize) canary
      return ({ bytes := bytes, records := records, allocations := some allocations }, returnPtr)

def canariesIntact (bytes : Addr → UInt8) (beginningCanary endCanary : Addr) : Bool :=
  (List.range canarySize.toNat).all fun i =>
    bytes (beginningCanary + UInt64.ofNat i) = canary.getD i 0 ∧
      bytes (endCanary + UInt64.ofNat i) = canary.getD i 0

def freeRecords (records : Heap AllocationT) :
    List (HashMapEntry Addr Addr) → Option (Heap AllocationT)
  | [] => some records
  | e :: es => do
    let records ← free records e.data
    freeRecords records es

def notifyFree (t : Tracker) (allocatorId : UInt8) (ptr : Addr) : Option (Tracker × Addr) :=
  match t.allocations with
  | none => some (t, ptr)
  | some allocations =>
    if ptr = 0 then some (t, ptr)
    else do
      let allocation ← allocations.get ptr
      let a ← load t.records allocation
      if a.freed ∨ a.allocatorId ≠ allocatorId then none
      let records ← store t.records allocation { a with freed := true }
      if canariesIntact t.bytes (ptr - canarySize) (ptr + a.size) then
        let (allocations, released, _) := allocations.erase ptr
        let records ← freeRecords records released
        return ({ t with records := records, allocations := some allocations }, ptr - canarySize)
      else none

def resizeForCanary (t : Tracker) (size : UInt64) : UInt64 :=
  if t.allocations.isSome then size + 2 * canarySize else size

/-! ## Clients and the underlying allocator -/

structure Block where
  start : Addr
  allocatorId : UInt8
  size : UInt64
  deriving DecidableEq, Repr

namespace Block

def ptr (b : Block) : Addr := b.start + canarySize

def extent (b : Block) : Extent where
  start := b.start.toNat
  len := b.size.toNat + 2 * canarySize.toNat

def requested (b : Block) : Extent where
  start := b.start.toNat + canarySize.toNat
  len := b.size.toNat

end Block

/-- The tracker, and the blocks that were allocated and are not freed. -/
structure State where
  tracker : Tracker
  live : List Block

inductive Label
  /-- the underlying allocator returns `ptr`, and the tracker is told -/
  | alloc (allocatorId : UInt8) (ptr : Addr) (size : UInt64) (record : Addr)
  /-- a client frees `ptr` -/
  | free (allocatorId : UInt8) (ptr : Addr)
  /-- a client writes a byte -/
  | write (a : Addr) (byte : UInt8)
  deriving DecidableEq, Repr

/-- Why a call is not made, or does not return. -/
inductive Fault
  /-- the underlying allocator does not return such a block -/
  | notAllowed
  /-- an assertion of the tracker fails -/
  | assertion
  deriving DecidableEq, Repr

/-- What the underlying allocator promises: a block that is not `NULL`, does not wrap,
and does not overlap a live one; and a record of its own. -/
def Available (s : State) (b : Block) (record : Addr) : Prop :=
  b.start ≠ 0 ∧ b.extent.start + b.extent.len ≤ 2 ^ 64 ∧
    (∀ b' ∈ s.live, b.extent.Disjoint b'.extent) ∧
    record ≠ 0 ∧ s.tracker.records record = none

instance (s : State) (b : Block) (record : Addr) : Decidable (Available s b record) :=
  inferInstanceAs (Decidable (_ ∧ _ ∧ _ ∧ _ ∧ _))

def step (s : State) : Label → Except Fault State
  | .alloc allocatorId ptr size record =>
      let b := { start := ptr, allocatorId := allocatorId, size := size }
      if Available s b record then
        ((notifyAlloc s.tracker allocatorId ptr size record).map fun r =>
          { tracker := r.1, live := b :: s.live }).elim (.error .assertion) .ok
      else .error .notAllowed
  | .free allocatorId ptr =>
      ((notifyFree s.tracker allocatorId ptr).map fun r =>
        { tracker := r.1, live := s.live.filter fun b => b.ptr ≠ ptr }).elim
        (.error .assertion) .ok
  | .write a byte =>
      .ok { s with tracker :=
        { s.tracker with bytes := Function.update s.tracker.bytes a byte } }

/-- An initialized tracker and no blocks. -/
def start (bytes : Addr → UInt8) : State where
  tracker := init { bytes := bytes, records := fun _ => none, allocations := none }
  live := []

/-- A client frees live blocks only, or `NULL`, with the allocator they are from, and
writes inside the bytes it requested, or where there is no block. -/
def Proper (s : State) : Label → Prop
  | .alloc _ _ _ _ => True
  | .free allocatorId ptr =>
      ptr = 0 ∨ ∃ b ∈ s.live, b.ptr = ptr ∧ b.allocatorId = allocatorId
  | .write a _ =>
      (∃ b ∈ s.live, b.requested.Contains a.toNat) ∨
        ∀ b ∈ s.live, ¬ b.extent.Contains a.toNat

instance (s : State) (l : Label) : Decidable (Proper s l) :=
  match l with
  | .alloc _ _ _ _ => isTrue trivial
  | .free _ _ => inferInstanceAs (Decidable (_ ∨ ∃ b ∈ s.live, _ ∧ _))
  | .write _ _ => inferInstanceAs (Decidable ((∃ b ∈ s.live, _) ∨ ∀ b ∈ s.live, _))

end AllocationTracker

end Osi
