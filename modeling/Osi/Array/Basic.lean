import Osi.Memory.Heap
import Osi.Transition.Run

/-!
# Growing arrays

An `array_t` keeps its elements behind its header, in the storage for 16 of them
that it is allocated with, until these are used up. Then they are moved to a block
of their own, which is reallocated whenever it is full. All sizes are `size_t` and
computed modulo 2 ^ 64.

A block is as large as was requested, but it gives a byte at every offset, so that
an access outside of it is an access of the model too. The accesses through
`memcpy` and the fields of the header are recorded: what `memcpy` writes, and what
it reads of a new element. The outcome of a `realloc` is an argument of the call.
-/

namespace Osi

open Memory

namespace ArrayT

/-- A block of memory: the number of bytes that were requested, and the byte at every
offset. -/
structure Block where
  size : UInt64
  bytes : ℕ → UInt8

inductive Storage
  | internal
  | heap (p : Addr)
  deriving DecidableEq, Repr

structure Access where
  size : ℕ
  offset : ℕ
  count : ℕ
  deriving DecidableEq, Repr

def Access.InBounds (a : Access) : Prop := a.offset + a.count ≤ a.size

instance (a : Access) : Decidable a.InBounds := inferInstanceAs (Decidable (_ ≤ _))

/-- The `array_t`: its fields, and the block that it stands in. `heap` are the other
blocks, `accesses` the accesses so far. -/
structure State where
  elementSize : UInt64
  length : UInt64
  capacity : UInt64
  data : Storage
  object : Block
  heap : Heap Block
  accesses : List Access

def headerSize : UInt64 := 32

def internalElements : UInt64 := 16

def arrayNew (heap : Heap Block) (elementSize : UInt64) : Option State :=
  if elementSize = 0 then none
  else some
    { elementSize := elementSize
      length := 0
      capacity := internalElements
      data := .internal
      object := { size := headerSize + elementSize * internalElements, bytes := fun _ => 0 }
      heap := heap
      accesses :=
        [{ size := (headerSize + elementSize * internalElements).toNat
           offset := 0
           count := headerSize.toNat }] }

def Storage.base : Storage → ℕ
  | .internal => headerSize.toNat
  | .heap _ => 0

def State.block (s : State) : Storage → Option Block
  | .internal => some s.object
  | .heap p => load s.heap p

def State.setBytes (s : State) (b : Block) (bytes : ℕ → UInt8) : Storage → State
  | .internal => { s with object := { b with bytes := bytes } }
  | .heap p => { s with heap := Function.update s.heap p (some { b with bytes := bytes }) }

def copy (bytes : ℕ → UInt8) (offset count : ℕ) (source : ℕ → UInt8) : ℕ → UInt8 :=
  fun k => if offset ≤ k ∧ k < offset + count then source (k - offset) else bytes k

def memcpy (s : State) (storage : Storage) (offset : UInt64) (source : ℕ → UInt8)
    (count : UInt64) : Option State := do
  let b ← s.block storage
  let s := s.setBytes b (copy b.bytes (storage.base + offset.toNat) count.toNat source) storage
  return { s with
    accesses := s.accesses ++
      [{ size := b.size.toNat, offset := storage.base + offset.toNat, count := count.toNat }] }

def arrayAt (s : State) (index : UInt64) : Option (Storage × UInt64) :=
  if index < s.length then some (s.data, index * s.elementSize) else none

structure Grant where
  addr : Addr
  bytes : ℕ → UInt8

/-- `realloc`; a block that grows or moves keeps its bytes. -/
def realloc (heap : Heap Block) (old : Storage) (size : UInt64) (grant : Grant) :
    Option (Heap Block) :=
  match old with
  | .internal => some (Function.update heap grant.addr (some { size, bytes := grant.bytes }))
  | .heap p => do
    let b ← load heap p
    return Function.update (Function.update heap p none) grant.addr
      (some
        { size
          bytes := fun k =>
            if k < min b.size.toNat size.toNat then b.bytes k else grant.bytes k })

/-- `grow`; the storage is `internal` where the source passes `NULL` to `realloc`. -/
def grow (s : State) (answer : Option Grant) : Option (State × Bool) := do
  let newCapacity := s.capacity + s.capacity / 2
  match answer with
  | none => return (s, false)
  | some grant =>
    let heap ← realloc s.heap s.data (newCapacity * s.elementSize) grant
    let s := { s with heap := heap }
    let s ← if s.data = .internal then
        memcpy s (.heap grant.addr) 0 (fun k => s.object.bytes (headerSize.toNat + k))
          (s.length * s.elementSize)
      else some s
    return ({ s with data := .heap grant.addr, capacity := newCapacity }, true)

structure Source where
  size : ℕ
  bytes : ℕ → UInt8

def appendElement (s : State) (source : Source) : Option State := do
  let s := { s with length := s.length + 1 }
  let (storage, offset) ← arrayAt s (s.length - 1)
  let s ← memcpy s storage offset source.bytes s.elementSize
  return { s with
    accesses := s.accesses ++
      [{ size := source.size, offset := 0, count := s.elementSize.toNat }] }

def arrayAppendPtr (s : State) (source : Source) (answer : Option Grant) :
    Option (State × Bool) := do
  if s.length = s.capacity then
    let (s, grown) ← grow s answer
    if grown then
      let s ← appendElement s source
      return (s, true)
    else return (s, false)
  else
    let s ← appendElement s source
    return (s, true)

/-- The argument of `array_append_value`, least significant byte first, and what
stands behind it. -/
def valueSource (value : UInt32) (stack : ℕ → UInt8) : Source where
  size := 4
  bytes := fun k => if k < 4 then (value >>> (8 * UInt32.ofNat k)).toUInt8 else stack k

def arrayAppendValue (s : State) (value : UInt32) (stack : ℕ → UInt8) (answer : Option Grant) :
    Option (State × Bool) :=
  arrayAppendPtr s (valueSource value stack) answer

/-! ## Clients -/

structure Client where
  state : State
  appended : List Source

inductive Label
  | appendPtr (source : Source) (answer : Option Grant)
  | appendValue (value : UInt32) (stack : ℕ → UInt8) (answer : Option Grant)

def Label.source : Label → Source
  | .appendPtr source _ => source
  | .appendValue value stack _ => valueSource value stack

def Label.answer : Label → Option Grant
  | .appendPtr _ answer => answer
  | .appendValue _ _ answer => answer

/-- Why a call is not made, or does not return. -/
inductive Fault
  /-- the source is too short, or the address that the allocator is to return is in
  use -/
  | notAllowed
  /-- an assertion fails, or a block is used that is not allocated -/
  | failed
  deriving DecidableEq, Repr

def call (s : State) : Label → Option (State × Bool)
  | .appendPtr source answer => arrayAppendPtr s source answer
  | .appendValue value stack answer => arrayAppendValue s value stack answer

/-- The allocator may return the address: it is not in use, or it is that of the
block that is reallocated. -/
def usable (s : State) (grant : Grant) : Bool :=
  grant.addr ≠ 0 ∧ ((s.heap grant.addr).isNone ∨ s.data = .heap grant.addr)

/-- What a client and the allocator keep to: `array_append_ptr` gets as many bytes as
an element has. -/
def allowed (s : State) (l : Label) : Bool :=
  l.answer.all (usable s) && match l with
    | .appendPtr source _ => decide (s.elementSize.toNat ≤ source.size)
    | .appendValue _ _ _ => true

/-- One call; what was appended counts if the call returns true. -/
def step (c : Client) (l : Label) : Except Fault Client :=
  if allowed c.state l then
    ((call c.state l).map fun r =>
      { state := r.1
        appended := if r.2 then c.appended ++ [l.source] else c.appended }).elim
      (.error .failed) .ok
  else .error .notAllowed

def start (s : State) : Client where
  state := s
  appended := []

end ArrayT

end Osi
