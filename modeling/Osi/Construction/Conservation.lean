import Osi.Construction.Specs.Operations

/-!
# Nothing is lost and nothing is released twice

What is live at any time is what the objects own that are held, except for the threads
that `thread_new_sized` has given up without joining them.
-/

namespace Osi

namespace Construction

open Ownership Transition

variable {o : Outcomes} {s s' : State}

/-- What is live is what the objects own and the threads that nobody joins. -/
structure Accounted (o : Outcomes) (s : State) : Prop where
  live : ∃ L, Unjoined o L ∧ s.world.live = ownAll s.objects + L
  complete : ∀ x ∈ s.objects, Object.Complete o x

theorem Unjoined.add {L L' : Multiset Res} (h : Unjoined o L) (h' : Unjoined o L') :
    Unjoined o (L + L') := by
  refine ⟨?_, fun hall => by rw [h.2 hall, h'.2 hall, zero_add]⟩
  intro r hr
  rcases Multiset.mem_add.mp hr with hr | hr
  · exact h.1 r hr
  · exact h'.1 r hr

/-- How a step ends, when it waits only if `W` holds. -/
inductive Ends (o : Outcomes) (W : Prop) : Except StepFault State → Prop
  | ok {s' : State} (h : Accounted o s') : Ends o W (.ok s')
  | notEnabled : Ends o W (.error .notEnabled)
  | assertion (h : ∃ n, o.runThreadEpollCtl n = false) : Ends o W (.error (.fault .assertion))
  | blocked (h : W) : Ends o W (.error (.fault .blocked))

section

variable {op : Operation} {i : ℕ} {object : Object} {m : Sys (List Object)}

end

theorem Ends.mono {W W' : Prop} {r : Except StepFault State} (h : Ends o W r) (hW : W → W') :
    Ends o W' r := by
  cases h with
  | ok h => exact .ok h
  | notEnabled => exact .notEnabled
  | assertion h => exact .assertion h
  | blocked h => exact .blocked (hW h)

end Construction

end Osi
