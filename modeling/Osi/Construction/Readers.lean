import Osi.Construction.Threads

/-!
# Eager readers and sockets

`inbound_data_waiting` is cut before `fixed_queue_enqueue`, where it may wait with the lock
of its object held.
-/

namespace Osi

namespace Construction

open Ownership

/-! ## Eager readers -/

/-- `eager_reader_t`, not registered with a reactor. `inboundBuffer` is the buffer that a
call of `inbound_data_waiting` is about to enqueue, with the lock of the object held. -/
structure EagerReader where
  block : Res
  bytesAvailableFd : Option Res
  buffers : Option FixedQueue
  currentBuffer : Option Res
  inboundReadThread : Option Thread
  inboundReadObject : Option Res
  inboundBuffer : Option Res
  deriving DecidableEq, Repr

/-- `reactor_unregister` of the object that is registered with the thread's reactor. -/
def unregisterInbound (reader : EagerReader) : Sys EagerReader :=
  match reader.inboundReadObject with
  | none => return reader
  | some object =>
      match reader.inboundReadThread with
      | none => null
      | some thread =>
      match thread.reactor with
      | none => null
      | some reactor =>
      match reader.inboundBuffer with
      -- the lock of the object is taken
      | some _ => fail .blocked
      | none => do
          let reactor ← reactorUnregister reactor object
          return { reader with inboundReadThread := some { thread with reactor := some reactor } }

/-- `eager_reader_free`, with `osi_free` as the allocator's. -/
def eagerReaderFree (o : Outcomes) : Option EagerReader → Sys Unit
  | none => pure ()
  | some reader => do
      use reader.block
      let reader ← unregisterInbound reader
      close reader.bytesAvailableFd
      reader.currentBuffer.elim (pure ()) osiFree
      fixedQueueFree reader.buffers true
      threadFree o reader.inboundReadThread
      osiFree reader.block

def eagerReaderNew (o : Outcomes) (maxBufferCount : UInt64) : Sys (Option EagerReader) := do
  assertThat (maxBufferCount ≠ 0)
  let block ← osiMalloc
  let ret : EagerReader :=
    { block, bytesAvailableFd := none, buffers := none, currentBuffer := none
      inboundReadThread := none, inboundReadObject := none, inboundBuffer := none }
  match ← attempt o.calls .descriptor with
  | none => do
      eagerReaderFree o (some ret)
      return none
  | some bytesAvailableFd =>
  match ← fixedQueueNew o maxBufferCount with
  | none => do
      eagerReaderFree o (some { ret with bytesAvailableFd })
      return none
  | some buffers =>
  match ← threadNew o with
  | none => do
      eagerReaderFree o (some { ret with bytesAvailableFd, buffers })
      return none
  | some thread =>
  match thread.reactor with
  | none => null
  | some reactor => do
      let (inboundReadObject, reactor) ← reactorRegister o.calls reactor
      return some { ret with
        bytesAvailableFd, buffers, inboundReadObject
        inboundReadThread := some { thread with reactor := some reactor } }

/-- `inbound_data_waiting` up to `fixed_queue_enqueue`, with the outcomes of `alloc` and of
`read`. -/
def inboundDataWaiting (o : Outcomes) (reader : EagerReader) : Sys EagerReader := do
  use reader.block
  match ← attempt o.calls .block with
  | none => return reader
  | some buffer =>
  if ← outcome o.calls then return { reader with inboundBuffer := some buffer }
  else do
    osiFree buffer
    return reader

/-- The rest of `inbound_data_waiting`. -/
def inboundEnqueue (reader : EagerReader) : Sys EagerReader := do
  use reader.block
  match reader.inboundBuffer, reader.buffers with
  | some buffer, some buffers => do
      let buffers ← fixedQueueEnqueue buffers buffer
      return { reader with inboundBuffer := none, buffers := some buffers }
  | _, _ => null

/-- `if (!reader->current_buffer)` in the loop of `eager_reader_read`. -/
def fetchBuffer (reader : EagerReader) : Sys EagerReader :=
  match reader.currentBuffer, reader.buffers with
  | some _, _ => return reader
  | none, none => null
  | none, some buffers => do
      let (buffer, buffers) ← fixedQueueDequeue buffers
      return { reader with currentBuffer := some buffer, buffers := some buffers }

/-- `has_byte`: a buffer counts from when it is enqueued until all of it is read. -/
def EagerReader.hasByte (reader : EagerReader) : Bool :=
  reader.currentBuffer.isSome || reader.buffers.any (!·.isEmpty)

/-- `eager_reader_read`, with one iteration of its loop; `allRead` says whether the buffer
is used up. -/
def eagerReaderRead (reader : EagerReader) (allRead : Bool) : Sys EagerReader := do
  use reader.block
  if reader.hasByte then do
    let reader ← fetchBuffer reader
    match reader.currentBuffer with
    | none => null
    | some buffer => do
        use buffer
        if allRead then do
          osiFree buffer
          return { reader with currentBuffer := none }
        else return reader
  else return reader

/-! ## Sockets -/

/-- `socket_t`, not registered with a reactor. -/
structure Socket where
  block : Res
  fd : Option Res
  deriving DecidableEq, Repr

def socketNew (o : Outcomes) : Sys (Option Socket) := do
  let block ← osiMalloc
  match ← attempt o.calls .descriptor with
  | none => do
      close none
      osiFree block
      return none
  | some fd =>
  if ← outcome o.calls then return some { block, fd }
  else do
    close fd
    osiFree block
    return none

def socketAccept (o : Outcomes) (socket : Socket) : Sys (Option Socket) := do
  use socket.block
  match ← attempt o.calls .descriptor with
  | none => return none
  | some fd => do
      let block ← osiMalloc
      return some { block, fd }

def socketFree : Option Socket → Sys Unit
  | none => pure ()
  | some socket => do
      use socket.block
      close socket.fd
      osiFree socket.block

end Construction

end Osi
