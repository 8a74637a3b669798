import Osi.AllocationTracker.Reset

/-!
# The allocator

`osi_malloc` and the other functions of `allocator.c` get their memory from `malloc`
and tell the tracker of it. The tracker may be off, it may be switched on or off in
between, and it may be reset; a block that was handed out with canaries is known by a
pointer into the middle of what `malloc` returned. Every block that is in use carries
the record of how it was handed out: without the tracker, or in which epoch of it. An
epoch ends when the tracker is switched on or off or forgets its blocks. No function
looks at the record or at the number of the epoch.

Which address `malloc` returns is part of the label. It occupies at least one byte, so
that the pointers of different blocks differ.
-/

namespace Osi

namespace Allocator

open Memory AllocationTracker

def allocAllocatorId : UInt8 := 42

/-- A block of `malloc` that is in use: where it starts, the size that was requested of
the allocator, and the epoch of the tracker that it was handed out in. -/
structure Block where
  start : Addr
  size : UInt64
  tracked : Option ℕ
  deriving DecidableEq, Repr

namespace Block

def ptr (b : Block) : Addr :=
  if b.tracked.isSome then b.start + canarySize else b.start

def extent (b : Block) : Extent where
  start := b.start.toNat
  len := if b.tracked.isSome then b.size.toNat + 2 * canarySize.toNat else max b.size.toNat 1

def requested (b : Block) : Extent where
  start := if b.tracked.isSome then b.start.toNat + canarySize.toNat else b.start.toNat
  len := b.size.toNat

end Block

structure State where
  tracker : Tracker
  epoch : ℕ
  blocks : List Block

/-- Why a call is not made, or does not return. -/
inductive Fault
  /-- `malloc` does not return such a block -/
  | notAllowed
  /-- an assertion of the tracker fails -/
  | assertion
  /-- `free` of a pointer that `malloc` has not returned -/
  | invalidFree
  deriving DecidableEq, Repr

namespace State

def newBlock (s : State) (start : Addr) (size : UInt64) : Block where
  start := start
  size := size
  tracked := if s.tracker.allocations.isSome then some s.epoch else none

def Available (s : State) (start : Addr) (realSize : UInt64) (record : Addr) : Prop :=
  start ≠ 0 ∧ start.toNat + max realSize.toNat 1 ≤ 2 ^ 64 ∧
    (∀ b ∈ s.blocks,
      (Extent.mk start.toNat (max realSize.toNat 1)).Disjoint b.extent) ∧
    record ≠ 0 ∧ s.tracker.records record = none

instance (s : State) (start : Addr) (realSize : UInt64) (record : Addr) :
    Decidable (s.Available start realSize record) :=
  inferInstanceAs (Decidable (_ ∧ _ ∧ _ ∧ _ ∧ _))

def bytes (s : State) : Addr → UInt8 := s.tracker.bytes

def setBytes (s : State) (bytes : Addr → UInt8) : State :=
  { s with tracker := { s.tracker with bytes := bytes } }

/-- `osi_malloc`, and what the other functions have in common with it. -/
def osiMalloc (s : State) (size : UInt64) (start record : Addr) :
    Except Fault (State × Addr) :=
  if s.Available start (resizeForCanary s.tracker size) record then
    match notifyAlloc s.tracker allocAllocatorId start size record with
    | some (tracker, ptr) =>
        .ok ({ s with tracker := tracker, blocks := s.newBlock start size :: s.blocks }, ptr)
    | none => .error .assertion
  else .error .notAllowed

def zeroed (bytes : Addr → UInt8) (start : Addr) (realSize : UInt64) : Addr → UInt8 :=
  fun a => if (Extent.mk start.toNat realSize.toNat).Contains a.toNat then 0 else bytes a

def osiCalloc (s : State) (size : UInt64) (start record : Addr) :
    Except Fault (State × Addr) :=
  (s.setBytes (zeroed s.bytes start (resizeForCanary s.tracker size))).osiMalloc
    size start record

def osiStrdup (s : State) (str : List UInt8) (start record : Addr) :
    Except Fault (State × Addr) :=
  match s.osiMalloc (UInt64.ofNat (str.length + 1)) start record with
  | .ok (s', newString) =>
      .ok (s'.setBytes (memcpy s'.bytes newString (str ++ [0])), newString)
  | .error e => .error e

def osiStrndup (s : State) (str : List UInt8) (len : UInt64) (start record : Addr) :
    Except Fault (State × Addr) :=
  let strlen := UInt64.ofNat str.length
  let size := if len < strlen then len else strlen
  match s.osiMalloc (size + 1) start record with
  | .ok (s', newString) =>
      let copied := memcpy s'.bytes newString (str.take size.toNat)
      .ok (s'.setBytes (Function.update copied (newString + size) 0), newString)
  | .error e => .error e

def osiFree (s : State) (ptr : Addr) : Except Fault State :=
  match notifyFree s.tracker allocAllocatorId ptr with
  | none => .error .assertion
  | some (tracker, start) =>
      if start = 0 then .ok { s with tracker := tracker }
      else if ∃ b ∈ s.blocks, b.start = start then
        .ok { s with tracker := tracker, blocks := s.blocks.filter fun b => b.start ≠ start }
      else .error .invalidFree

/-- A call of the tracker that begins another epoch, if there is a tracker. -/
def endEpoch (s : State) (tracker : Option Tracker) : Except Fault State :=
  match tracker with
  | some tracker =>
      .ok { s with
        tracker := tracker
        epoch := if s.tracker.allocations.isSome then s.epoch + 1 else s.epoch }
  | none => .error .assertion

end State

inductive Label
  | init
  | reset
  | uninit
  | malloc (size : UInt64) (start record : Addr)
  | calloc (size : UInt64) (start record : Addr)
  | strdup (str : List UInt8) (start record : Addr)
  | strndup (str : List UInt8) (len : UInt64) (start record : Addr)
  | free (ptr : Addr)
  /-- a client writes a byte -/
  | write (a : Addr) (byte : UInt8)
  deriving DecidableEq, Repr

def step (s : State) : Label → Except Fault State
  | .init =>
      .ok { s with
        tracker := init s.tracker
        epoch := if s.tracker.allocations.isSome then s.epoch else s.epoch + 1 }
  | .reset => s.endEpoch (reset s.tracker)
  | .uninit => s.endEpoch (uninit s.tracker)
  | .malloc size start record => (s.osiMalloc size start record).map Prod.fst
  | .calloc size start record => (s.osiCalloc size start record).map Prod.fst
  | .strdup str start record => (s.osiStrdup str start record).map Prod.fst
  | .strndup str len start record => (s.osiStrndup str len start record).map Prod.fst
  | .free ptr => s.osiFree ptr
  | .write a byte => .ok (s.setBytes (Function.update s.bytes a byte))

def requestedSize : Label → ℕ
  | .malloc size _ _ | .calloc size _ _ => size.toNat
  | .strdup str _ _ | .strndup str _ _ _ => str.length + 1
  | _ => 0

def start (bytes : Addr → UInt8) : State where
  tracker := { bytes := bytes, records := fun _ => none, allocations := none }
  epoch := 0
  blocks := []

/-- A client requests no more than the canaries leave room for in a `size_t`, writes to
what it requested or to memory that is not from `malloc`, and frees what it has. -/
def Proper (s : State) : Label → Prop
  | .free ptr => ptr = 0 ∨ ∃ b ∈ s.blocks, b.ptr = ptr
  | .write a _ =>
      (∃ b ∈ s.blocks, b.requested.Contains a.toNat) ∨
        ∀ b ∈ s.blocks, ¬ b.extent.Contains a.toNat
  | l => requestedSize l + 2 * canarySize.toNat < 2 ^ 64

instance (s : State) (l : Label) : Decidable (Proper s l) :=
  match l with
  | .free _ => inferInstanceAs (Decidable (_ ∨ ∃ b ∈ s.blocks, _))
  | .write _ _ => inferInstanceAs (Decidable ((∃ b ∈ s.blocks, _) ∨ ∀ b ∈ s.blocks, _))
  | .init => inferInstanceAs (Decidable (_ < _))
  | .reset => inferInstanceAs (Decidable (_ < _))
  | .uninit => inferInstanceAs (Decidable (_ < _))
  | .malloc _ _ _ => inferInstanceAs (Decidable (_ < _))
  | .calloc _ _ _ => inferInstanceAs (Decidable (_ < _))
  | .strdup _ _ _ => inferInstanceAs (Decidable (_ < _))
  | .strndup _ _ _ _ => inferInstanceAs (Decidable (_ < _))

end Allocator

end Osi
