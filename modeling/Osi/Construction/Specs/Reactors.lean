import Osi.Construction.Specs.Queues
import Osi.Construction.Threads

/-!
# What reactors own

The objects that are registered belong to those who have registered them.
-/

namespace Osi

namespace Construction

open Ownership
open Ownership.Triple (owned?)

variable {may : Fault → Prop} {o : Outcomes}

def single (r : Res) : Multiset Res := {r}

def Reactor.own (reactor : Reactor) : Multiset Res :=
  {reactor.block} + (owned? ListT.own reactor.invalidationList +
    (owned? single reactor.eventFd + owned? single reactor.epollFd))

def Reactor.Complete (reactor : Reactor) : Prop :=
  ∃ list, reactor.invalidationList = some list

end Construction

end Osi
