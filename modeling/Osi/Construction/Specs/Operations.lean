import Osi.Construction.Operations
import Osi.Construction.Specs.Readers
import Mathlib.Algebra.BigOperators.Group.List.Basic

/-!
# One call

A constructor, or an operation on an object that does not wait, leaves what the objects
own that it returns; an operation waits where `waits` says so.
-/

namespace Osi

namespace Construction

open Ownership
open Ownership.Triple (owned?)

namespace Object

def own : Object → Multiset Res
  | .semaphore s => s.own
  | .fixedQueue q => q.ownAll
  | .reactor r => r.own + (r.objects : Multiset Res)
  | .thread t => t.own
  | .eagerReader r => r.own
  | .socket s => s.own

def Complete (o : Outcomes) : Object → Prop
  | .fixedQueue q => q.Complete
  | .reactor r => r.Complete
  | .thread t => t.Complete o
  | .eagerReader r => r.Complete o
  | _ => True

end Object

variable {may : Fault → Prop} {o : Outcomes}

def ownAll (objects : List Object) : Multiset Res := (objects.map Object.own).sum

end Construction

end Osi
