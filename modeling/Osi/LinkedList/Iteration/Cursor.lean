import Osi.LinkedList.Iteration.Edits

/-!
# The cursor of the iteration

The elements of the list are split at the cursor, the node where the loop goes on.
Behind it are the elements that were visited and others that no visit is due for; ahead
are, in the order of the list, those that are still to be visited.
-/

namespace Osi

open Memory Transition

namespace LinkedList

variable {mem₀ : Heap (Node Addr)} {s : State}

def startOf (es : List Element) : Addr := (es.head?.map Element.addr).getD 0

theorem startOf_of_segment {heap : Heap (Node Addr)} {p : Addr} {es : List Element}
    (h : Segment heap p (nodes es) 0) : p = startOf es := by
  cases es with
  | nil => exact h
  | cons e es => exact h.1

/-- The elements are split at the cursor. Those ahead are not visited and were not inserted
before a visited one; with those that were visited they are in order, and of the first `n`
elements only those are missing that were removed early. -/
structure Split (n : ℕ) (it : Iteration) (cursor : Addr) (behind ahead : List Element) :
    Prop where
  elements_eq : it.elements = behind ++ ahead
  cursor_eq : cursor = startOf ahead
  unvisited : ∀ e ∈ ahead, e.stamp ∉ it.visited
  notBefore : ∀ e ∈ ahead, e.stamp ∉ it.insertedBefore
  sorted : ((it.visited ++ ahead.map Element.stamp).filter (· < n)).Pairwise (· < ·)
  complete : ∀ i < n, i ∈ it.visited ∨ i ∈ ahead.map Element.stamp ∨ i ∈ it.removedEarly

/-- The cursor is where the loop goes on. In the callback this is so as long as the element
at the cursor was not removed. -/
def AtCursor (n : ℕ) (it : Iteration) : Prop :=
  match it.pc with
  | .head => ∃ behind ahead, Split n it it.node behind ahead
  | .calling => (∀ i ∈ it.following, i ∈ it.stamps) →
      ∃ behind ahead, Split n it it.next behind ahead ∧
        it.following = ahead.head?.map Element.stamp
  | .ended => ∃ behind, Split n it 0 behind []
  | .stopped => True

/-- What holds in every run, for a list that had `n` elements at first. -/
structure IterationInvariant (mem₀ : Heap (Node Addr)) (n : ℕ) (it : Iteration) : Prop where
  rep : Rep mem₀ it.list (nodes it.elements)
  nodup : it.stamps.Nodup
  stamps_lt : ∀ i ∈ it.stamps, i < it.count
  le_count : n ≤ it.count
  visited_lt : ∀ i ∈ it.visited, i < it.count
  following_lt : ∀ i ∈ it.following, i < it.count
  sorted : (it.visited.filter (· < n)).Pairwise (· < ·)
  early_lt : ∀ i ∈ it.removedEarly, i < it.count
  early : ∀ i ∈ it.removedEarly, i ∉ it.visited ∧ i ∉ it.stamps
  before_lt : ∀ i ∈ it.insertedBefore, i < it.count
  before : ∀ i ∈ it.insertedBefore, i ∉ it.visited
  atCursor : AtCursor n it

namespace IterationInvariant

variable {n : ℕ} {it : Iteration}

theorem element_lt (h : IterationInvariant mem₀ n it) {e : Element} (he : e ∈ it.elements) :
    e.stamp < it.count :=
  h.stamps_lt e.stamp (List.mem_map_of_mem he)

/-! ### The start -/

theorem nodesFrom_eq {heap : Heap (Node Addr)} {p : Addr} {l : List (Addr × Addr)}
    (hchain : Segment heap p l 0) (hnull : 0 ∉ addrs l) : nodesFrom heap l.length p = l := by
  induction l generalizing p with
  | nil => rfl
  | cons x l ih =>
      obtain ⟨a, y⟩ := x
      obtain ⟨rfl, next, hp, hchain⟩ := hchain
      rw [addrs_cons, List.mem_cons, not_or] at hnull
      rw [List.length_cons, nodesFrom, if_neg (Ne.symm hnull.1)]
      simp only [hp, ih hchain hnull.2]

theorem start {l : List (Addr × Addr)} (hrep : Rep mem₀ s l) :
    IterationInvariant mem₀ l.length (Iteration.start s) := by
  have helements : (Iteration.start s).elements = l.mapIdx fun i n => ⟨i, n.1, n.2⟩ := by
    rw [Iteration.start, hrep.length, nodesFrom_eq hrep.chain hrep.null]
  have hnodes : nodes (Iteration.start s).elements = l := by
    rw [helements, nodes]
    refine List.ext_getElem (by simp) ?_
    intro i h₁ h₂
    simp
  have hstamps : (Iteration.start s).stamps = List.range l.length := by
    rw [Iteration.stamps, helements]
    refine List.ext_getElem (by simp) ?_
    intro i h₁ h₂
    simp
  have hcount : (Iteration.start s).count = l.length := hrep.length
  exact
    { rep := by
        rw [hnodes]
        exact hrep
      nodup := by
        rw [hstamps]
        exact List.nodup_range
      stamps_lt := by
        intro i hi
        rw [hstamps, List.mem_range] at hi
        rwa [hcount]
      le_count := hcount.ge
      visited_lt := by
        intro i hi
        cases hi
      following_lt := by
        intro i hi
        cases hi
      sorted := List.Pairwise.nil
      early_lt := by
        intro i hi
        cases hi
      early := by
        intro i hi
        cases hi
      before_lt := by
        intro i hi
        cases hi
      before := by
        intro i hi
        cases hi
      atCursor := by
        refine ⟨[], (Iteration.start s).elements, rfl, ?_, ?_, ?_, ?_, ?_⟩
        · rw [← hnodes] at hrep
          exact startOf_of_segment hrep.chain
        · intro e _ hmem
          cases hmem
        · intro e _ hmem
          cases hmem
        · refine List.Pairwise.filter _ ?_
          change (Iteration.start s).stamps.Pairwise (· < ·)
          rw [hstamps]
          exact List.pairwise_lt_range
        · intro i hi
          refine .inr (.inl ?_)
          change i ∈ (Iteration.start s).stamps
          rw [hstamps]
          exact List.mem_range.mpr hi }

/-! ### The loop -/

theorem find_addr {es : List Element} {behind ahead : List Element} {e : Element}
    (hes : es = behind ++ e :: ahead) (hnodup : (addrs (nodes es)).Nodup) :
    (es.find? fun e' => e'.addr = e.addr) = some e := by
  rw [List.find?_eq_some_iff_append]
  refine ⟨by simp, behind, ahead, hes, ?_⟩
  intro e' he'
  subst hes
  rw [nodes_append, nodes_cons] at hnodup
  have hnot := (not_mem_of_nodup hnodup).1
  simp only [Bool.not_eq_true', decide_eq_false_iff_not]
  intro heq
  refine hnot ?_
  rw [← heq, addrs, nodes, List.map_map]
  exact List.mem_map_of_mem (f := Prod.fst ∘ fun e => (e.addr, e.data)) he'

theorem stampAt_startOf (h : IterationInvariant mem₀ n it) {behind ahead : List Element}
    (hes : it.elements = behind ++ ahead) :
    it.stampAt (startOf ahead) = ahead.head?.map Element.stamp := by
  unfold Iteration.stampAt
  cases ahead with
  | nil =>
      have hnone : (it.elements.find? fun e => e.addr = startOf []) = none := by
        rw [List.find?_eq_none]
        intro e he hzero
        refine h.rep.null ?_
        rw [← (of_decide_eq_true hzero : e.addr = 0), addrs, nodes, List.map_map]
        exact List.mem_map_of_mem (f := Prod.fst ∘ fun e => (e.addr, e.data)) he
      rw [hnone]
      rfl
  | cons e ahead =>
      change Option.map Element.stamp (it.elements.find? fun e' => e'.addr = e.addr) = _
      rw [find_addr hes h.rep.nodup]
      rfl

/-- The node at the cursor is allocated, and the loop reads the one behind it. -/
theorem visit (h : IterationInvariant mem₀ n it) (hpc : it.pc = .head) :
    ∃ it', it.visit = .ok it' ∧ IterationInvariant mem₀ n it' := by
  have hcursor := h.atCursor
  simp only [AtCursor, hpc] at hcursor
  obtain ⟨behind, ahead, hsplit⟩ := hcursor
  cases ahead with
  | nil =>
      have hnode : it.node = 0 := hsplit.cursor_eq
      refine ⟨{ it with pc := .ended }, by simp [Iteration.visit, hnode], ?_⟩
      exact { h with
        atCursor := ⟨behind, { hsplit with cursor_eq := rfl }⟩ }
  | cons e ahead =>
      have hnode : it.node = e.addr := hsplit.cursor_eq
      have hchain := h.rep.chain
      rw [hsplit.elements_eq, nodes_append, nodes_cons] at hchain
      obtain ⟨-, next, hload, hrest⟩ := segment_through.mp hchain
      have hnode0 : it.node ≠ 0 := by
        rw [hnode]
        intro hzero
        refine h.rep.null ?_
        rw [hsplit.elements_eq, nodes_append, nodes_cons, addrs_append, addrs_cons, hzero]
        simp
      have hbehind : it.elements = (behind ++ [e]) ++ ahead := by
        rw [hsplit.elements_eq, List.append_assoc]
        rfl
      have hnext : next = startOf ahead := startOf_of_segment hrest
      have hthis : it.stampAt it.node = some e.stamp := by
        rw [hsplit.cursor_eq, h.stampAt_startOf hsplit.elements_eq]
        rfl
      have hfollowing : it.stampAt next = ahead.head?.map Element.stamp := by
        rw [hnext, h.stampAt_startOf hbehind]
      have hmem : e.stamp ∈ it.stamps := by
        rw [Iteration.stamps, hsplit.elements_eq]
        simp
      have hnotAhead : e.stamp ∉ ahead.map Element.stamp := by
        have hnodup := h.nodup
        rw [Iteration.stamps, hsplit.elements_eq] at hnodup
        intro hahead
        refine stamp_notMem hnodup ?_
        rw [List.map_append]
        exact List.mem_append_right _ hahead
      have hsorted := hsplit.sorted
      rw [List.map_cons, List.append_cons] at hsorted
      let it' : Iteration := { it with
        pc := .calling
        next := next
        following := ahead.head?.map Element.stamp
        visited := it.visited ++ [e.stamp] }
      have hvisit : it.visit = .ok it' := by
        simp only [Iteration.visit, if_neg hnode0, load]
        rw [hnode] at hthis ⊢
        simp only [hload, hthis, hfollowing, Option.toList_some, it']
        rw [hnode]
      refine ⟨it', hvisit, ?_⟩
      exact
        { h with
          visited_lt := by
            intro i hi
            rcases List.mem_append.mp hi with hi | hi
            · exact h.visited_lt i hi
            · rw [List.mem_singleton.mp hi]
              exact h.stamps_lt e.stamp hmem
          following_lt := by
            intro i hi
            obtain ⟨e', he', rfl⟩ := Option.map_eq_some_iff.mp hi
            refine h.element_lt ?_
            rw [hbehind]
            exact List.mem_append_right _ (List.mem_of_head? he')
          sorted := by
            refine hsorted.sublist (List.Sublist.filter _ ?_)
            exact List.sublist_append_left _ _
          early := by
            intro i hi
            obtain ⟨hvisited, hstamps⟩ := h.early i hi
            refine ⟨fun hmem' => ?_, hstamps⟩
            rcases List.mem_append.mp hmem' with hmem' | hmem'
            · exact hvisited hmem'
            · rw [List.mem_singleton.mp hmem'] at hstamps
              exact hstamps hmem
          before := by
            intro i hi hmem'
            rcases List.mem_append.mp hmem' with hmem' | hmem'
            · exact h.before i hi hmem'
            · rw [List.mem_singleton.mp hmem'] at hi
              exact hsplit.notBefore e List.mem_cons_self hi
          atCursor := by
            intro _
            refine ⟨behind ++ [e], ahead, ⟨hbehind, hnext, ?_, ?_, hsorted, ?_⟩, rfl⟩
            · intro e' he' hmem'
              rcases List.mem_append.mp hmem' with hmem' | hmem'
              · exact hsplit.unvisited e' (List.mem_cons_of_mem e he') hmem'
              · refine hnotAhead ?_
                rw [← List.mem_singleton.mp hmem']
                exact List.mem_map_of_mem he'
            · intro e' he'
              exact hsplit.notBefore e' (List.mem_cons_of_mem e he')
            · intro i hi
              rcases hsplit.complete i hi with hvisited | hahead | hearly
              · exact .inl (List.mem_append_left _ hvisited)
              · rw [List.map_cons, List.mem_cons] at hahead
                rcases hahead with rfl | hahead
                · exact .inl (List.mem_append_right _ (List.mem_singleton_self _))
                · exact .inr (.inl hahead)
              · exact .inr (.inr hearly) }

end IterationInvariant

end LinkedList

end Osi
