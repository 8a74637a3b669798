import Osi.Memory.Heap
import Osi.Transition.Run

/-!
# Shared buffers

A `buffer_t` is a root, with its bytes behind the header, or a slice, which holds
no bytes and points to a root. A slice of a slice points to the same root, and a
slice knows its place by its length only: it is the last bytes of the root. The
root counts the handles that refer to it, its own included, and is released with
the last of them.

The functions work on a heap of such objects and are undefined where an assertion
fails or an object is used that is not allocated. A client keeps a list of the
handles it got and has not freed. For each it remembers from which root it is
derived and which bytes the handle it was sliced from stood for; the functions do
not see that.
-/

namespace Osi

open Memory

/-- `buffer_t`, without its bytes. -/
structure Buffer where
  root : Addr
  refcount : UInt64
  length : UInt64
  deriving DecidableEq, Repr

namespace Buffer

def sizeMax : UInt64 := 18446744073709551615

def headerSize : UInt64 := 24

/-- `buffer_new`; `p` is what `osi_calloc` returns. -/
def bufferNew (mem : Heap Buffer) (p : Addr) (size : UInt64) : Option (Heap Buffer) :=
  if size = 0 then none
  else alloc mem p { root := p, refcount := 1, length := size }

def bufferNewSlice (mem : Heap Buffer) (p buf : Addr) (sliceSize : UInt64) :
    Option (Heap Buffer) := do
  let b ← load mem buf
  if sliceSize = 0 ∨ b.length < sliceSize then none
  else
    let mem ← alloc mem p { root := b.root, refcount := sizeMax, length := sliceSize }
    let root ← load mem b.root
    store mem b.root { root with refcount := root.refcount + 1 }

def bufferNewRef (mem : Heap Buffer) (p buf : Addr) : Option (Heap Buffer) := do
  let b ← load mem buf
  bufferNewSlice mem p buf b.length

/-- `buffer_free`, with the addresses it passes to `osi_free`. -/
def bufferFree (mem : Heap Buffer) (buffer : Addr) : Option (Heap Buffer × List Addr) := do
  if buffer = 0 then return (mem, [])
  let b ← load mem buffer
  if b.root ≠ buffer then
    let root ← load mem b.root
    let mem ← store mem b.root { root with refcount := root.refcount - 1 }
    if root.refcount - 1 = 0 then
      let mem ← free mem b.root
      let mem ← free mem buffer
      return (mem, [b.root, buffer])
    else
      let mem ← free mem buffer
      return (mem, [buffer])
  else
    let mem ← store mem buffer { b with refcount := b.refcount - 1 }
    if b.refcount - 1 = 0 then
      let mem ← free mem buffer
      return (mem, [buffer])
    else return (mem, [])

def bufferPtr (mem : Heap Buffer) (buf : Addr) : Option Addr := do
  let b ← load mem buf
  let root ← load mem b.root
  return b.root + headerSize + root.length - b.length

def bufferLength (mem : Heap Buffer) (buf : Addr) : Option UInt64 := do
  let b ← load mem buf
  return b.length

/-! ## Clients -/

/-- A handle of a client: where it is, the root it is derived from, and the bytes
of the handle it was sliced from, if it is a slice. -/
structure Handle where
  addr : Addr
  origin : Addr
  source : Option (Addr × UInt64)
  deriving DecidableEq, Repr

structure State where
  mem : Heap Buffer
  handles : List Handle

/-- The calls; `p` is the address that the allocator returns. -/
inductive Label
  | new (p : Addr) (size : UInt64)
  | newRef (p buf : Addr)
  | newSlice (p buf : Addr) (sliceSize : UInt64)
  | free (buf : Addr)
  deriving DecidableEq, Repr

/-- Why a call is not made, or does not return. -/
inductive Fault
  /-- the client has no such handle, or the block does not fit the address space -/
  | notAllowed
  /-- an assertion fails, an object is used that is not allocated, or the address
  that the allocator returns is in use -/
  | failed
  deriving DecidableEq, Repr

/-- No buffers. -/
def init : State where
  mem := fun _ => none
  handles := []

def State.find (s : State) (buf : Addr) : Option Handle :=
  s.handles.find? fun h => h.addr = buf

/-- The state after a slice was made of the handle `h`. -/
def State.sliced (s : State) (p : Addr) (h : Handle) (mem : Heap Buffer) : State where
  mem := mem
  handles :=
    { addr := p
      origin := h.origin
      source := do
        let ptr ← bufferPtr s.mem h.addr
        let length ← bufferLength s.mem h.addr
        return (ptr, length) } :: s.handles

/-- One call of a client that uses its live handles only. -/
def step (s : State) : Label → Except Fault State
  | .new p size =>
      if p.toNat + headerSize.toNat + size.toNat < 2 ^ 64 then
        ((bufferNew s.mem p size).map fun mem =>
          { mem := mem
            handles := { addr := p, origin := p, source := none } :: s.handles }).elim
          (.error .failed) .ok
      else .error .notAllowed
  | .newRef p buf =>
      (s.find buf).elim (.error .notAllowed) fun h =>
        ((bufferNewRef s.mem p buf).map (s.sliced p h)).elim (.error .failed) .ok
  | .newSlice p buf sliceSize =>
      (s.find buf).elim (.error .notAllowed) fun h =>
        ((bufferNewSlice s.mem p buf sliceSize).map (s.sliced p h)).elim (.error .failed) .ok
  | .free buf =>
      (s.find buf).elim (.error .notAllowed) fun h =>
        ((bufferFree s.mem buf).map fun r =>
          { mem := r.1, handles := s.handles.erase h }).elim (.error .failed) .ok

end Buffer

end Osi
