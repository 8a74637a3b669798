import Osi.LinkedList.Iteration.Callback

/-!
# What the iteration visits

In every run in which the node that the loop goes on from is not removed, the iteration
visits the elements that it is to visit, in the order of the list.
-/

namespace Osi

open Memory Transition

namespace LinkedList

variable {mem₀ : Heap (Node Addr)} {s : State}

theorem filter_eq_range {l early : List ℕ} {n : ℕ}
    (hsorted : (l.filter (· < n)).Pairwise (· < ·)) (hmem : ∀ i < n, i ∈ l ↔ i ∉ early) :
    l.filter (· < n) = (List.range n).filter (· ∉ early) := by
  refine List.Perm.eq_of_pairwise (fun a b _ _ hab hba => absurd hab (Nat.lt_asymm hba)) hsorted
    (List.pairwise_lt_range.filter _) ?_
  rw [List.perm_ext_iff_of_nodup (hsorted.imp Nat.ne_of_lt)
    (List.nodup_range.filter _)]
  intro i
  simp only [List.mem_filter, decide_eq_true_iff, List.mem_range]
  constructor
  · rintro ⟨hi, hlt⟩
    exact ⟨hlt, (hmem i hlt).mp hi⟩
  · rintro ⟨hlt, hi⟩
    exact ⟨(hmem i hlt).mpr hi, hlt⟩

theorem invariant_of_run {labels : List Label} {freeCb : Bool} {c : Client}
    (hmade : Run (Next LinkedList.step) (LinkedList.start mem₀ freeCb) labels c)
    {actions : List Action} {it : Iteration}
    (hrun : Run (Guarded Iteration.KeepsNext (Next Iteration.step)) (.start c.state) actions it) :
    IterationInvariant mem₀ c.state.list.length.toNat it := by
  obtain ⟨l, hrep, -⟩ := (refines_start.run hmade).nodes
  have hstart := IterationInvariant.start hrep
  rw [← hrep.length] at hstart
  exact hrun.invariant (fun _ _ _ hinv hstep => hinv.step hstep.1 hstep.2) hstart

/-- An iteration over a list that was made by any calls, with a callback that makes any
calls, as long as the element at `next` is there when the callback returns true. The node
that is read is always allocated, and a call of the callback never fails. Of the elements
that the list had, the callback is called in their order and at most once for each, for
none that was removed before, and at the end for all others. It is not called for an
element that was inserted before the visited one. -/
theorem foreach_visits {labels : List Label} {freeCb : Bool} {c : Client}
    (hmade : Run (Next LinkedList.step) (LinkedList.start mem₀ freeCb) labels c)
    {actions : List Action} {it : Iteration}
    (hrun : Run (Guarded Iteration.KeepsNext (Next Iteration.step)) (.start c.state) actions it) :
    let n := c.state.list.length.toNat
    (it.pc = .head → it.node ≠ 0 → (load it.list.mem it.node).isSome) ∧
    (∀ label, it.pc = .calling → allowed it.list label = true →
      ∃ it', it.step (.mutate label) = .ok it') ∧
    (it.visited.filter (· < n)).Pairwise (· < ·) ∧
    (∀ i ∈ it.removedEarly, i ∉ it.visited) ∧
    (it.pc = .ended → it.visited.filter (· < n) = (List.range n).filter (· ∉ it.removedEarly)) ∧
    ∀ i ∈ it.insertedBefore, i ∉ it.visited := by
  intro n
  have h : IterationInvariant mem₀ n it := invariant_of_run hmade hrun
  refine ⟨?_, ?_, h.sorted, fun i hi => (h.early i hi).1, ?_, h.before⟩
  · intro hpc hnode
    obtain ⟨it', hvisit, -⟩ := h.visit hpc
    rw [Iteration.visit, if_neg hnode] at hvisit
    cases hload : load it.list.mem it.node with
    | some x => rfl
    | none =>
        rw [hload] at hvisit
        cases hvisit
  · intro label hpc hallowed
    obtain ⟨it', hstep, -⟩ := h.mutate hpc hallowed
    exact ⟨it', hstep⟩
  · intro hpc
    have hcursor := h.atCursor
    simp only [AtCursor, hpc] at hcursor
    obtain ⟨behind, hsplit⟩ := hcursor
    refine filter_eq_range h.sorted fun i hi => ?_
    constructor
    · intro hvisited hearly
      exact (h.early i hearly).1 hvisited
    · intro hearly
      rcases hsplit.complete i hi with hvisited | hahead | hearly'
      · exact hvisited
      · cases hahead
      · exact absurd hearly' hearly

def fourElements : List Label :=
  [.append 5 (some 100), .append 6 (some 200), .append 7 (some 300), .append 8 (some 400)]

/-- The first visit removes 5, which is visited, and 7, and puts 9 in front; the second one
puts 4 behind 8. -/
def removesOthers : List Action :=
  [.visit, .mutate (.remove 5), .mutate (.remove 7), .mutate (.prepend 9 (some 100)),
    .callbackReturns true, .visit, .mutate (.append 4 (some 300)), .callbackReturns true,
    .visit, .callbackReturns true, .visit, .callbackReturns true, .visit]

theorem foreach_visits_removesOthers :
    ∃ (c : Client) (it : Iteration),
      Run (Next LinkedList.step) (LinkedList.start (fun _ => none) true) fourElements c ∧
      Run (Guarded Iteration.KeepsNext (Next Iteration.step)) (.start c.state) removesOthers it ∧
      it.pc = .ended ∧ it.removedEarly = [2] ∧ it.visited.filter (· < 4) = [0, 1, 3] := by
  have hend : ((exec (fun _ _ => true) LinkedList.step
      (LinkedList.start (fun _ => none) true) fourElements).any fun c =>
        c.state.list.length = 4 ∧ (exec (fun it action => decide (it.KeepsNext action))
          Iteration.step (.start c.state) removesOthers).any fun it =>
            it.pc = .ended ∧ it.removedEarly = [2]) = true := by
    decide +kernel
  obtain ⟨c, hc, hend⟩ := (Option.any_eq_true _ _).mp hend
  obtain ⟨hlength, hend⟩ := of_decide_eq_true hend
  obtain ⟨it, hit, hend⟩ := (Option.any_eq_true _ _).mp hend
  obtain ⟨hpc, hearly⟩ := of_decide_eq_true hend
  have hmade := Run.of_exec_true hc
  have hrun := Run.of_exec hit
  have hvisited := (foreach_visits hmade hrun).2.2.2.2.1 hpc
  rw [hlength, hearly] at hvisited
  exact ⟨c, it, hmade, hrun, hpc, hearly, hvisited⟩

def removesNext : List Action :=
  [.visit, .mutate (.remove 6), .callbackReturns true]

/-- After that the loop is at a node that is not allocated, and reads it. -/
theorem foreach_reads_freed_removesNext :
    ∃ (c : Client) (it : Iteration),
      Run (Next LinkedList.step) (LinkedList.start (fun _ => none) true) fourElements c ∧
      Run (Next Iteration.step) (.start c.state) removesNext it ∧
      it.pc = .head ∧ it.node = 200 ∧ load it.list.mem it.node = none ∧
      it.step .visit = .error .freed := by
  have hend : ((exec (fun _ _ => true) LinkedList.step
      (LinkedList.start (fun _ => none) true) fourElements).any fun c =>
        (exec (fun _ _ => true) Iteration.step (.start c.state) removesNext).any fun it =>
          it.pc = .head ∧ it.node = 200 ∧ load it.list.mem it.node = none) = true := by
    decide +kernel
  obtain ⟨c, hc, hend⟩ := (Option.any_eq_true _ _).mp hend
  obtain ⟨it, hit, hend⟩ := (Option.any_eq_true _ _).mp hend
  obtain ⟨hpc, hnode, hload⟩ := of_decide_eq_true hend
  refine ⟨c, it, Run.of_exec_true hc, Run.of_exec_true hit, hpc, hnode, hload, ?_⟩
  have hnode0 : it.node ≠ 0 := by
    rw [hnode]
    decide
  rw [Iteration.step, if_pos hpc, Iteration.visit, if_neg hnode0, hload]

end LinkedList

end Osi
