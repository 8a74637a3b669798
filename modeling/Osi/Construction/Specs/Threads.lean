import Osi.Construction.Specs.Reactors

/-!
# What threads own

A thread owns the object that `run_thread` has registered, as long as it runs, and is
joined once it was stopped or has returned. `thread_new_sized` does not join a thread
that could not set its name.
-/

namespace Osi

namespace Construction

open Ownership
open Ownership.Triple (owned?)

variable {may : Fault → Prop} {o : Outcomes}

namespace Thread

def own (thread : Thread) : Multiset Res :=
  {thread.block} + ((if thread.isJoined then 0 else owned? single thread.pthread) +
    (owned? Reactor.own thread.reactor + (owned? FixedQueue.ownAll thread.workQueue +
      owned? single thread.phase.object)))

structure Complete (o : Outcomes) (thread : Thread) : Prop where
  pthread : ∃ pthread, thread.pthread = some pthread
  reactor : ∃ reactor, thread.reactor = some reactor ∧ reactor.Complete
  workQueue : ∃ queue, thread.workQueue = some queue ∧ queue.Complete
  registered : thread.phase = .running none → ∃ n, o.runThreadEpollCtl n = false
  joined : thread.isJoined = true → thread.phase = .returned

end Thread

/-- Threads that are never joined: those that could not set their name. -/
def Unjoined (o : Outcomes) (L : Multiset Res) : Prop :=
  (∀ r ∈ L, r.kind = .thread) ∧ ((∀ n, o.prctl n = true) → L = 0)

theorem Thread.Complete.setQueue {thread : Thread} {queue : FixedQueue}
    (hthread : thread.Complete o) (hqueue : queue.Complete) :
    Thread.Complete o { thread with workQueue := some queue } :=
  ⟨hthread.pthread, hthread.reactor, ⟨queue, rfl, hqueue⟩, hthread.registered, hthread.joined⟩

end Construction

end Osi
