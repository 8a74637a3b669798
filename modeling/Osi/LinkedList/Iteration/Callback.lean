import Osi.LinkedList.Iteration.Cursor

/-!
# The callback

A call of the callback leaves the cursor where it is, unless it removes the element at the
cursor. Then the cursor is the address of a node that is not allocated any more, or that
belongs to another element; if the callback returns true after that, the loop goes on from
there.
-/

namespace Osi

open Memory Transition

namespace LinkedList

variable {mem₀ : Heap (Node Addr)} {s : State}

namespace IterationInvariant

variable {n : ℕ} {it : Iteration}

/-- Two numbers in a split list: what stands before a number behind is itself behind. -/
theorem mem_of_standsBefore {l₁ l₂ : List ℕ} {x y : ℕ} (hy : y ∉ l₂)
    (h : standsBefore (l₁ ++ l₂) x y = true) : x ∈ l₁ := by
  obtain ⟨hmem, hbefore⟩ := of_decide_eq_true h
  have hy₁ : y ∈ l₁ := (List.mem_append.mp hmem).resolve_right hy
  obtain ⟨a, b, rfl, ha⟩ := List.eq_append_cons_of_mem hy₁
  rw [List.append_assoc, List.cons_append, List.takeWhile_append_of_pos, List.takeWhile_cons_of_neg,
    List.append_nil] at hbefore
  · exact List.mem_append_left _ hbefore
  · simp
  · intro z hz
    rw [decide_eq_true_iff]
    rintro rfl
    exact ha hz

/-- A call that does not remove the element at the cursor leaves the cursor where it is. -/
theorem split_record (h : IterationInvariant mem₀ n it) {behind ahead : List Element}
    (hsplit : Split n it it.next behind ahead) (list : State) (label : Label)
    (hkept : ∀ e ∈ ahead.head?,
      e.stamp ∈ (Iteration.record { it with list := list } label).stamps) :
    ∃ behind' ahead', Split n (Iteration.record { it with list := list } label) it.next
      behind' ahead' ∧ ahead'.head? = ahead.head? := by
  have hedit := edit_of_label it.elements it.count label
  have hnodup := hedit.nodup h.nodup fun e he => h.element_lt he
  obtain ⟨behind', ahead', helements, hhead, hmem, hremoved, hsub⟩ :=
    hedit.split hsplit.elements_eq h.nodup hkept
  have hunvisited : ∀ e ∈ ahead', e.stamp ∉ it.visited := by
    intro e he hvisited
    rcases hmem e he with he | he
    · exact hsplit.unvisited e he hvisited
    · rw [he] at hvisited
      exact absurd (h.visited_lt _ hvisited) (Nat.lt_irrefl _)
  refine ⟨behind', ahead', ⟨helements, ?_, hunvisited, ?_, ?_, ?_⟩, hhead⟩
  · rw [hsplit.cursor_eq, startOf, startOf, hhead]
  · intro e he hbefore
    rcases List.mem_append.mp hbefore with hbefore | hbefore
    · rcases hmem e he with he | he
      · exact hsplit.notBefore e he hbefore
      · rw [he] at hbefore
        exact absurd (h.before_lt _ hbefore) (Nat.lt_irrefl _)
    · -- the new element would stand on both sides
      split_ifs at hbefore with hany
      · obtain ⟨y, hy, hstands⟩ := (Option.any_eq_true _ _).mp hany
        have hyahead : y ∉ ahead'.map Element.stamp := by
          intro hmem'
          obtain ⟨e', he', rfl⟩ := List.mem_map.mp hmem'
          exact hunvisited e' he' (List.mem_of_getLast? hy)
        simp only [helements, List.map_append] at hstands hnodup
        have hbehind := mem_of_standsBefore hyahead hstands
        rw [List.nodup_append] at hnodup
        refine hnodup.2.2 _ hbehind e.stamp (List.mem_map_of_mem he) ?_
        exact (List.mem_singleton.mp hbefore).symm
      · cases hbefore
  · have hsorted := hsplit.sorted
    rw [List.filter_append] at hsorted ⊢
    exact hsorted.sublist ((List.Sublist.refl _).append (hsub n h.le_count))
  · intro i hi
    rcases hsplit.complete i hi with hvisited | hahead | hearly
    · exact .inl hvisited
    · obtain ⟨e, he, rfl⟩ := List.mem_map.mp hahead
      rcases hremoved e he with he' | he'
      · exact .inr (.inl (List.mem_map_of_mem he'))
      · refine .inr (.inr (List.mem_append_right _ (List.mem_filter.mpr ⟨?_, ?_⟩)))
        · exact List.mem_map_of_mem he'
        · exact decide_eq_true (hsplit.unvisited e he)
    · exact .inr (.inr (List.mem_append_left _ hearly))

theorem mutate (h : IterationInvariant mem₀ n it) (hpc : it.pc = .calling) {label : Label}
    (hallowed : allowed it.list label = true) :
    ∃ it', it.step (.mutate label) = .ok it' ∧ IterationInvariant mem₀ n it' := by
  obtain ⟨list, b, hcall, hrep⟩ := h.rep.call_elements hallowed it.count
  have hedit := edit_of_label it.elements it.count label
  have hnodup := hedit.nodup h.nodup fun e he => h.element_lt he
  refine ⟨Iteration.record { it with list := list } label, by
    simp [Iteration.step, hpc, hallowed, hcall], ?_⟩
  have hstamps : ∀ i ∈ (Iteration.record { it with list := list } label).stamps,
      i ∈ it.stamps ∨ i = it.count := by
    intro i hi
    obtain ⟨e, he, rfl⟩ := List.mem_map.mp hi
    exact (hedit.mem he).imp (fun he => List.mem_map_of_mem he) id
  exact
    { rep := hrep
      nodup := hnodup
      stamps_lt := by
        intro i hi
        rcases hstamps i hi with hi | rfl
        · exact Nat.lt_succ_of_lt (h.stamps_lt i hi)
        · exact Nat.lt_succ_self _
      le_count := Nat.le_succ_of_le h.le_count
      visited_lt := fun i hi => Nat.lt_succ_of_lt (h.visited_lt i hi)
      following_lt := fun i hi => Nat.lt_succ_of_lt (h.following_lt i hi)
      sorted := h.sorted
      early_lt := by
        intro i hi
        rcases List.mem_append.mp hi with hi | hi
        · exact Nat.lt_succ_of_lt (h.early_lt i hi)
        · obtain ⟨e, he, rfl⟩ := List.mem_map.mp (List.mem_filter.mp hi).1
          exact Nat.lt_succ_of_lt (h.element_lt (hedit.removed_gone h.nodup he).1)
      early := by
        intro i hi
        rcases List.mem_append.mp hi with hi | hi
        · refine ⟨(h.early i hi).1, fun hmem => ?_⟩
          rcases hstamps i hmem with hmem | rfl
          · exact (h.early i hi).2 hmem
          · exact absurd (h.early_lt _ hi) (Nat.lt_irrefl _)
        · obtain ⟨hi, hvisited⟩ := List.mem_filter.mp hi
          obtain ⟨e, he, rfl⟩ := List.mem_map.mp hi
          exact ⟨of_decide_eq_true hvisited, (hedit.removed_gone h.nodup he).2⟩
      before_lt := by
        intro i hi
        rcases List.mem_append.mp hi with hi | hi
        · exact Nat.lt_succ_of_lt (h.before_lt i hi)
        · split_ifs at hi
          · rw [List.mem_singleton.mp hi]
            exact Nat.lt_succ_self _
          · cases hi
      before := by
        intro i hi
        rcases List.mem_append.mp hi with hi | hi
        · exact h.before i hi
        · split_ifs at hi
          · rw [List.mem_singleton.mp hi]
            exact fun hmem => absurd (h.visited_lt _ hmem) (Nat.lt_irrefl _)
          · cases hi
      atCursor := by
        have hcursor := h.atCursor
        have hpc' : (Iteration.record { it with list := list } label).pc = .calling := hpc
        simp only [AtCursor, hpc] at hcursor
        simp only [AtCursor, hpc']
        intro hkept
        have hold : ∀ i ∈ it.following, i ∈ it.stamps := by
          intro i hi
          rcases hstamps i (hkept i hi) with hi' | rfl
          · exact hi'
          · exact absurd (h.following_lt _ hi) (Nat.lt_irrefl _)
        obtain ⟨behind, ahead, hsplit, hfollowing⟩ := hcursor hold
        obtain ⟨behind', ahead', hsplit', hhead⟩ := h.split_record hsplit list label (by
          intro e he
          refine hkept e.stamp ?_
          change it.following = some e.stamp
          rw [hfollowing, he]
          rfl)
        refine ⟨behind', ahead', hsplit', ?_⟩
        rw [hhead]
        exact hfollowing }

theorem returns (h : IterationInvariant mem₀ n it) (hpc : it.pc = .calling) {result : Bool}
    (hkeeps : it.KeepsNext (.callbackReturns result)) :
    IterationInvariant mem₀ n (if result then { it with pc := .head, node := it.next }
      else { it with pc := .stopped }) := by
  cases result with
  | false => exact { h with atCursor := trivial }
  | true =>
      have hcursor := h.atCursor
      simp only [AtCursor, hpc] at hcursor
      obtain ⟨behind, ahead, hsplit, -⟩ := hcursor hkeeps
      exact { h with atCursor := ⟨behind, ahead, { hsplit with }⟩ }

theorem step (h : IterationInvariant mem₀ n it) {it' : Iteration} {action : Action}
    (hkeeps : it.KeepsNext action) (hstep : it.step action = .ok it') :
    IterationInvariant mem₀ n it' := by
  cases action with
  | visit =>
      simp only [Iteration.step] at hstep
      split_ifs at hstep with hpc
      obtain ⟨it'', hvisit, hinv⟩ := h.visit hpc
      obtain rfl := Except.ok.inj (hstep.symm.trans hvisit)
      exact hinv
  | mutate label =>
      have henabled : it.pc = .calling ∧ allowed it.list label = true := by
        by_contra hnot
        rw [Iteration.step, if_neg hnot] at hstep
        cases hstep
      obtain ⟨it'', hmutate, hinv⟩ := h.mutate henabled.1 henabled.2
      obtain rfl := Except.ok.inj (hstep.symm.trans hmutate)
      exact hinv
  | callbackReturns result =>
      have hpc : it.pc = .calling := by
        by_contra hnot
        rw [Iteration.step, if_neg hnot] at hstep
        cases hstep
      rw [Iteration.step, if_pos hpc] at hstep
      obtain rfl := Except.ok.inj hstep
      exact h.returns hpc hkeeps

end IterationInvariant

end LinkedList

end Osi
