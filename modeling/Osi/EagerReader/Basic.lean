import Osi.FixedQueue.Basic
import Osi.Transition.Run

/-!
# The eager reader

The inbound thread reads chunks from a file descriptor into buffers, puts the
buffers into a queue and adds their lengths to an eventfd. One consumer calls
`eager_reader_read`: it polls the eventfd, takes its whole counter, copies at
most that many bytes out of the buffers, and writes back what it did not use.

Every system call and every queue operation is one step, so the two threads
interleave between any two of them; `FixedQueue/Refinement.lean` is about the
queue operations themselves. The eventfd is not in semaphore mode: a read
returns the whole counter and resets it. `input` and `calls` record what was
read and what the calls returned.
-/

namespace Osi

/-- `data_buffer_t`; `data` holds the bytes that were read into it. -/
structure DataBuffer where
  length : ℕ
  offset : ℕ
  data : List UInt8
  deriving DecidableEq, Repr

namespace DataBuffer

/-- The bytes of the buffer that have not been copied out. -/
def remaining (b : DataBuffer) : List UInt8 := b.data.drop b.offset

end DataBuffer

namespace EagerReader

inductive Producer
  | waiting
  /-- about to call `fixed_queue_enqueue` -/
  | enqueueing (buffer : DataBuffer)
  /-- about to call `eventfd_write` with the number of bytes read -/
  | counting (bytesRead : ℕ)
  deriving DecidableEq, Repr

/-- The local variables of the copy loop of `eager_reader_read`. `maxSize` has
been cut to `bytesAvailable`, `requested` is its value at the call, and `buffer`
holds the bytes copied so far. -/
structure Copying where
  requested : ℕ
  maxSize : ℕ
  bytesAvailable : ℕ
  bytesConsumed : ℕ
  buffer : List UInt8
  deriving DecidableEq, Repr

inductive Consumer
  | idle
  /-- about to poll in `has_byte` -/
  | polling (maxSize : ℕ)
  /-- about to call `eventfd_read` -/
  | fetching (maxSize : ℕ)
  | copying (c : Copying)
  deriving DecidableEq, Repr

/-- A call that has returned: its argument, the counter value it fetched, which
is `0` when `has_byte` saw none, and the bytes it returned. -/
structure Call where
  maxSize : ℕ
  fetched : ℕ
  bytes : List UInt8
  deriving DecidableEq, Repr

inductive Fault
  /-- the thread waits in the queue operation or in the system call -/
  | blocked
  /-- the thread is not at the point of the program the label belongs to -/
  | notEnabled
  deriving DecidableEq, Repr

inductive Label
  /-- `read` returns a chunk -/
  | read (chunk : List UInt8)
  /-- `read` returns nothing or fails -/
  | readFailed
  | enqueue
  | count
  /-- the consumer calls `eager_reader_read` -/
  | call (maxSize : ℕ)
  | poll
  | fetch
  | dequeue
  | copy
  /-- the consumer writes the rest back and returns -/
  | finish
  deriving DecidableEq, Repr

end EagerReader

open EagerReader

/-- `eager_reader_t`, with the two threads that use it. -/
structure EagerReader where
  bufferSize : ℕ
  buffers : FixedQueue DataBuffer
  currentBuffer : Option DataBuffer
  /-- the counter of `bytes_available_fd` -/
  bytesAvailable : ℕ
  producer : Producer
  consumer : Consumer
  input : List UInt8
  calls : List Call

namespace EagerReader

def new (bufferSize : ℕ) (maxBufferCount : UInt64) : EagerReader where
  bufferSize := bufferSize
  buffers := FixedQueue.new maxBufferCount
  currentBuffer := none
  bytesAvailable := 0
  producer := .waiting
  consumer := .idle
  input := []
  calls := []

/-- One iteration of the copy loop with the current buffer `b`: the local
variables and the buffer after it, or `NULL` when the buffer was freed. -/
def copyFrom (c : Copying) (b : DataBuffer) : Copying × Option DataBuffer :=
  let bytesToCopy :=
    if b.length - b.offset > c.maxSize - c.bytesConsumed then
      c.maxSize - c.bytesConsumed
    else b.length - b.offset
  let b' := { b with offset := b.offset + bytesToCopy }
  ({ c with
      bytesConsumed := c.bytesConsumed + bytesToCopy
      buffer := c.buffer ++ (b.data.drop b.offset).take bytesToCopy },
    if b'.offset ≥ b'.length then none else some b')

def finishCall (s : EagerReader) (call : Call) : EagerReader :=
  { s with consumer := .idle, calls := s.calls ++ [call] }

def step (s : EagerReader) : Label → Except Fault EagerReader
  | .read chunk =>
      match s.producer with
      | .waiting =>
          if 0 < chunk.length ∧ chunk.length ≤ s.bufferSize then
            .ok { s with
              producer := .enqueueing { length := chunk.length, offset := 0, data := chunk }
              input := s.input ++ chunk }
          else .error .notEnabled
      | _ => .error .notEnabled
  | .readFailed =>
      match s.producer with
      | .waiting => .ok s
      | _ => .error .notEnabled
  | .enqueue =>
      match s.producer with
      | .enqueueing b =>
          match s.buffers.enqueue b with
          | some q => .ok { s with buffers := q, producer := .counting b.length }
          | none => .error .blocked
      | _ => .error .notEnabled
  | .count =>
      match s.producer with
      | .counting n =>
          .ok { s with bytesAvailable := s.bytesAvailable + n, producer := .waiting }
      | _ => .error .notEnabled
  | .call maxSize =>
      match s.consumer with
      | .idle => .ok { s with consumer := .polling maxSize }
      | _ => .error .notEnabled
  | .poll =>
      match s.consumer with
      | .polling maxSize =>
          if s.bytesAvailable = 0 then
            .ok (s.finishCall { maxSize, fetched := 0, bytes := [] })
          else .ok { s with consumer := .fetching maxSize }
      | _ => .error .notEnabled
  | .fetch =>
      match s.consumer with
      | .fetching maxSize =>
          if s.bytesAvailable = 0 then .error .blocked
          else
            .ok { s with
              bytesAvailable := 0
              consumer := .copying
                { requested := maxSize
                  maxSize := if maxSize > s.bytesAvailable then s.bytesAvailable else maxSize
                  bytesAvailable := s.bytesAvailable
                  bytesConsumed := 0
                  buffer := [] } }
      | _ => .error .notEnabled
  | .dequeue =>
      match s.consumer, s.currentBuffer with
      | .copying c, none =>
          if c.bytesConsumed < c.maxSize then
            match s.buffers.dequeue with
            | some (b, q) => .ok { s with buffers := q, currentBuffer := some b }
            | none => .error .blocked
          else .error .notEnabled
      | _, _ => .error .notEnabled
  | .copy =>
      match s.consumer, s.currentBuffer with
      | .copying c, some b =>
          if c.bytesConsumed < c.maxSize then
            let (c', current) := copyFrom c b
            .ok { s with consumer := .copying c', currentBuffer := current }
          else .error .notEnabled
      | _, _ => .error .notEnabled
  | .finish =>
      match s.consumer with
      | .copying c =>
          if c.bytesConsumed < c.maxSize then .error .notEnabled
          else
            .ok ({ s with
                bytesAvailable :=
                  s.bytesAvailable + (c.bytesAvailable - c.bytesConsumed) }.finishCall
              { maxSize := c.requested, fetched := c.bytesAvailable, bytes := c.buffer })
      | _ => .error .notEnabled

inductive StepCase (s : EagerReader) : Label → EagerReader → Prop
  | read {chunk : List UInt8} (hp : s.producer = .waiting) (hpos : 0 < chunk.length) :
      StepCase s (.read chunk)
        { s with
          producer := .enqueueing { length := chunk.length, offset := 0, data := chunk }
          input := s.input ++ chunk }
  | readFailed (hp : s.producer = .waiting) : StepCase s .readFailed s
  | enqueue {b : DataBuffer} {q : FixedQueue DataBuffer} (hp : s.producer = .enqueueing b)
      (hq : s.buffers.enqueue b = some q) :
      StepCase s .enqueue { s with buffers := q, producer := .counting b.length }
  | count {n : ℕ} (hp : s.producer = .counting n) :
      StepCase s .count
        { s with bytesAvailable := s.bytesAvailable + n, producer := .waiting }
  | call {maxSize : ℕ} (hc : s.consumer = .idle) :
      StepCase s (.call maxSize) { s with consumer := .polling maxSize }
  | pollEmpty {maxSize : ℕ} (hc : s.consumer = .polling maxSize)
      (hzero : s.bytesAvailable = 0) :
      StepCase s .poll (s.finishCall { maxSize, fetched := 0, bytes := [] })
  | poll {maxSize : ℕ} (hc : s.consumer = .polling maxSize)
      (hpos : s.bytesAvailable ≠ 0) :
      StepCase s .poll { s with consumer := .fetching maxSize }
  | fetch {maxSize : ℕ} (hc : s.consumer = .fetching maxSize) :
      StepCase s .fetch
        { s with
          bytesAvailable := 0
          consumer := .copying
            { requested := maxSize
              maxSize := if maxSize > s.bytesAvailable then s.bytesAvailable else maxSize
              bytesAvailable := s.bytesAvailable
              bytesConsumed := 0
              buffer := [] } }
  | dequeue {c : Copying} {b : DataBuffer} {q : FixedQueue DataBuffer}
      (hc : s.consumer = .copying c) (hb : s.currentBuffer = none)
      (hq : s.buffers.dequeue = some (b, q)) :
      StepCase s .dequeue { s with buffers := q, currentBuffer := some b }
  | copy {c : Copying} {b : DataBuffer} (hc : s.consumer = .copying c)
      (hb : s.currentBuffer = some b) (hlt : c.bytesConsumed < c.maxSize) :
      StepCase s .copy
        { s with
          consumer := .copying (copyFrom c b).1
          currentBuffer := (copyFrom c b).2 }
  | finish {c : Copying} (hc : s.consumer = .copying c)
      (hge : ¬ c.bytesConsumed < c.maxSize) :
      StepCase s .finish
        ({ s with
            bytesAvailable :=
              s.bytesAvailable + (c.bytesAvailable - c.bytesConsumed) }.finishCall
          { maxSize := c.requested, fetched := c.bytesAvailable, bytes := c.buffer })

theorem step_cases {s s' : EagerReader} {l : Label} (h : s.step l = .ok s') :
    StepCase s l s' := by
  cases l with
  | read chunk =>
      simp only [step] at h
      split at h
      · rename_i hp
        split at h
        · rename_i hlen
          cases h
          exact .read hp hlen.1
        · cases h
      · cases h
  | readFailed =>
      simp only [step] at h
      split at h
      · rename_i hp
        cases h
        exact .readFailed hp
      · cases h
  | enqueue =>
      simp only [step] at h
      split at h
      · rename_i b hp
        split at h
        · rename_i q hq
          cases h
          exact .enqueue hp hq
        · cases h
      · cases h
  | count =>
      simp only [step] at h
      split at h
      · rename_i n hp
        cases h
        exact .count hp
      · cases h
  | call maxSize =>
      simp only [step] at h
      split at h
      · rename_i hc
        cases h
        exact .call hc
      · cases h
  | poll =>
      simp only [step] at h
      split at h
      · rename_i maxSize hc
        split at h
        · rename_i hzero
          cases h
          exact .pollEmpty hc hzero
        · rename_i hpos
          cases h
          exact .poll hc hpos
      · cases h
  | fetch =>
      simp only [step] at h
      split at h
      · rename_i maxSize hc
        split at h
        · cases h
        · cases h
          exact .fetch hc
      · cases h
  | dequeue =>
      simp only [step] at h
      split at h
      · rename_i c hc hb
        split at h
        · split at h
          · rename_i b q hq
            cases h
            exact .dequeue hc hb hq
          · cases h
        · cases h
      · cases h
  | copy =>
      simp only [step] at h
      split at h
      · rename_i c b hc hb
        split at h
        · rename_i hlt
          cases h
          exact .copy hc hb hlt
        · cases h
      · cases h
  | finish =>
      simp only [step] at h
      split at h
      · rename_i c hc
        split at h
        · cases h
        · rename_i hge
          cases h
          exact .finish hc hge
      · cases h

end EagerReader

end Osi
