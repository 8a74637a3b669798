import Osi.Construction.Readers
import Osi.Construction.Specs.Threads

/-!
# What eager readers and sockets own

The lock of the object that an eager reader has registered is held while a buffer is
enqueued, and `eager_reader_free` waits for it.
-/

namespace Osi

namespace Construction

open Ownership
open Ownership.Triple (owned?)

variable {may : Fault → Prop} {o : Outcomes}

/-! ## Eager readers -/

namespace EagerReader

/-- Without the object that is registered. -/
def ownRest (reader : EagerReader) : Multiset Res :=
  {reader.block} + (owned? single reader.bytesAvailableFd +
    (owned? FixedQueue.ownAll reader.buffers + (owned? single reader.currentBuffer +
      (owned? Thread.own reader.inboundReadThread + owned? single reader.inboundBuffer))))

def own (reader : EagerReader) : Multiset Res :=
  owned? single reader.inboundReadObject + reader.ownRest

structure Consistent (o : Outcomes) (reader : EagerReader) : Prop where
  buffers : ∀ q ∈ reader.buffers, q.Complete
  thread : ∀ t ∈ reader.inboundReadThread, t.Complete o
  object : reader.inboundReadObject ≠ none → ∃ t, reader.inboundReadThread = some t
  inbound : reader.inboundBuffer ≠ none → ∃ object, reader.inboundReadObject = some object

def Complete (o : Outcomes) (reader : EagerReader) : Prop :=
  reader.Consistent o ∧ ∃ queue, reader.buffers = some queue

end EagerReader

def Socket.own (socket : Socket) : Multiset Res := {socket.block} + owned? single socket.fd

end Construction

end Osi
