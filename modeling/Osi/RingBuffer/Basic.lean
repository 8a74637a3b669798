import Osi.Transition.Calls
import Osi.Collection.Ring

/-!
# The ring buffer

`Ringbuffer` is `ringbuffer_t`. The pointers `head` and `tail` are offsets from
`base`, and `base` gives the byte at every offset; only the offsets below
`total` belong to the allocated buffer. An offset is not forced to stay below
`total`, so that a write or a read outside the buffer is a write or a read of
the model too.

`ringbuffer_insert` and `ringbuffer_peek` go byte by byte and wrap after every
byte. `ringbuffer_delete` and `ringbuffer_pop` move `head` by the whole length
and subtract `total` at most once.
-/

namespace Osi

structure Ringbuffer where
  total : ℕ
  available : ℕ
  base : ℕ → UInt8
  head : ℕ
  tail : ℕ

namespace Ringbuffer

/-- `ringbuffer_init(size)`; `osi_calloc` clears the buffer. -/
def init (size : ℕ) : Ringbuffer where
  total := size
  available := size
  base := fun _ => 0
  head := 0
  tail := 0

def size (rb : Ringbuffer) : ℕ := rb.total - rb.available

/-- The pointer after the byte at `b`, as the loops of `ringbuffer_insert` and
`ringbuffer_peek` advance it. -/
def next (rb : Ringbuffer) (b : ℕ) : ℕ := if b + 1 ≥ rb.total then 0 else b + 1

def insertByte (rb : Ringbuffer) (x : UInt8) : Ringbuffer :=
  { rb with
    base := Function.update rb.base rb.tail x
    tail := rb.next rb.tail }

/-- `ringbuffer_insert(rb, p, length)`, where `p` stands for the `length` bytes
the pointer refers to. -/
def insert (rb : Ringbuffer) (p : List UInt8) : Ringbuffer × ℕ :=
  let length := if p.length > rb.available then rb.available else p.length
  let rb' := (p.take length).foldl insertByte rb
  ({ rb' with available := rb'.available - length }, length)

/-- `rb->head += length`, with the single wrap that follows it, and the bytes
handed back to `available`. -/
def advanceHead (rb : Ringbuffer) (length : ℕ) : Ringbuffer :=
  { rb with
    head :=
      if rb.head + length ≥ rb.total then rb.head + length - rb.total
      else rb.head + length
    available := rb.available + length }

def delete (rb : Ringbuffer) (length : ℕ) : Ringbuffer × ℕ :=
  let length := if length > rb.size then rb.size else length
  (rb.advanceHead length, length)

/-- The loop of `ringbuffer_peek` with `n` iterations of `copied < length` left:
the bytes written to `p` from now on and the final value of `copied`. -/
def peekLoop (rb : Ringbuffer) : (n b copied : ℕ) → List UInt8 × ℕ
  | 0, _, copied => ([], copied)
  | n + 1, b, copied =>
      if copied < rb.size then
        let (rest, copied') := peekLoop rb n (rb.next b) (copied + 1)
        (rb.base b :: rest, copied')
      else ([], copied)

def peek (rb : Ringbuffer) (length : ℕ) : List UInt8 × ℕ :=
  rb.peekLoop length rb.head 0

def pop (rb : Ringbuffer) (length : ℕ) : Ringbuffer × List UInt8 × ℕ :=
  let (bytes, copied) := rb.peek length
  (rb.advanceHead copied, bytes, copied)

def contents (rb : Ringbuffer) : List UInt8 :=
  Collection.window rb.base rb.total rb.head rb.size

inductive Op
  | insert (p : List UInt8)
  | delete (length : ℕ)
  | peek (length : ℕ)
  | pop (length : ℕ)
  deriving DecidableEq

/-- What a call gives back: the bytes it wrote through `p`, if it takes one to
write to, and the number it returned. -/
structure Reply where
  bytes : List UInt8
  count : ℕ
  deriving DecidableEq

def step (rb : Ringbuffer) : Op → Ringbuffer × Reply
  | .insert p =>
      let (rb', count) := rb.insert p
      (rb', { bytes := [], count })
  | .delete length =>
      let (rb', count) := rb.delete length
      (rb', { bytes := [], count })
  | .peek length =>
      let (bytes, count) := rb.peek length
      (rb, { bytes, count })
  | .pop length =>
      let (rb', bytes, count) := rb.pop length
      (rb', { bytes, count })

end Ringbuffer

end Osi
