import Osi.LinkedList.Refinement.Removal

/-!
# A list is a sequence

The calls on the list do to the heap of nodes what the operations of a sequence do.
-/

namespace Osi

open Memory Transition

namespace LinkedList

variable {mem₀ mem' : Heap (Node Addr)} {s s' : State} {l l' l₁ l₂ : List (Addr × Addr)}
  {a p data x : Addr}

/-- A sequence of elements, with those that were taken out and what the operations
returned. -/
structure Sequence where
  items : List Addr
  released : List Addr
  returned : List Bool
  deriving DecidableEq, Repr

namespace Sequence

def empty : Sequence where
  items := []
  released := []
  returned := []

def put (q : Sequence) (items : List Addr) (node : Option Addr) : Sequence :=
  if node.isSome then { q with items := items, returned := q.returned ++ [true] }
  else { q with returned := q.returned ++ [false] }

def step (q : Sequence) : Label → Sequence
  | .prepend data node => q.put (data :: q.items) node
  | .append data node => q.put (q.items ++ [data]) node
  | .insertAfter index data node => q.put (q.items.insertIdx (index + 1) data) node
  | .remove data =>
      if data ∈ q.items then
        { items := q.items.erase data
          released := q.released ++ [data]
          returned := q.returned ++ [true] }
      else { q with returned := q.returned ++ [false] }
  | .clear =>
      { items := []
        released := q.released ++ q.items
        returned := q.returned ++ [true] }

end Sequence

/-- The list is the sequence, and `free_cb` was called for the elements that were
taken out. -/
structure Refines (mem₀ : Heap (Node Addr)) (freeCb : Bool) (c : Client) (q : Sequence) :
    Prop where
  nodes : ∃ l, Rep mem₀ c.state l ∧ l.map Prod.snd = q.items
  callback : c.state.list.freeCb = freeCb
  calls : c.state.calls = if freeCb then q.released else []
  returned : c.returned = q.returned

variable {freeCb : Bool} {c c' : Client} {q : Sequence}

theorem refines_start : Refines mem₀ freeCb (start mem₀ freeCb) Sequence.empty where
  nodes := ⟨[], rep_listNew mem₀ freeCb, rfl⟩
  callback := rfl
  calls := by cases freeCb <;> rfl
  returned := rfl

/-- So many steps from the first node there is a node, or the end. -/
theorem Rep.nodeAt_eq {index : ℕ} (hrep : Rep mem₀ s l) (hnode : nodeAt s index = some p) :
    ∃ l₁ l₂, l = l₁ ++ l₂ ∧ l₁.length = index ∧ Segment s.mem p l₂ 0 := by
  induction index generalizing p with
  | zero =>
    obtain rfl := Option.some.inj hnode
    exact ⟨[], l, rfl, rfl, hrep.chain⟩
  | succ index ih =>
    obtain ⟨a, ha, hnext⟩ := Option.bind_eq_some_iff.mp hnode
    obtain ⟨l₁, l₂, rfl, hlength, hchain⟩ := ih ha
    by_cases ha0 : a = 0
    · simp [listNext, ha0] at hnext
    cases l₂ with
    | nil => exact absurd hchain ha0
    | cons n l₂ =>
      obtain ⟨b, x⟩ := n
      obtain ⟨rfl, next, hb, hchain⟩ := hchain
      refine ⟨l₁ ++ [(a, x)], l₂, by simp, by simp [hlength], ?_⟩
      simp only [listNext, ha0, load, hb] at hnext
      obtain rfl : next = p := by simpa using hnext
      exact hchain

theorem map_eraseP (l : List (Addr × Addr)) (data : Addr) :
    (l.eraseP fun n => n.2 = data).map Prod.snd = (l.map Prod.snd).erase data := by
  rw [List.erase_eq_eraseP', List.eraseP_map]
  rfl

theorem insertIdx_map (l₁ l₂ : List (Addr × Addr)) (n n' : Addr × Addr) :
    (l₁ ++ n :: n' :: l₂).map Prod.snd =
      ((l₁ ++ n :: l₂).map Prod.snd).insertIdx (l₁.length + 1) n'.2 := by
  induction l₁ with
  | nil => rfl
  | cons m l₁ ih =>
    rw [List.cons_append, List.map_cons, ih]
    rfl

/-- A call does to the nodes what happens to the sequence. -/
def Follows (mem₀ : Heap (Node Addr)) (s : State) (r : Option (State × Bool))
    (q q' : Sequence) : Prop :=
  ∃ l released b, Does mem₀ s r l released b ∧
    q' =
      { items := l.map Prod.snd
        released := q.released ++ released
        returned := q.returned ++ [b] }

/-- Without memory nothing happens, and `false` is returned. -/
theorem Rep.follows_false (hrep : Rep mem₀ s l) (hitems : l.map Prod.snd = q.items)
    {r : Option (State × Bool)} (hr : r = some (s, false)) :
    Follows mem₀ s r q { q with returned := q.returned ++ [false] } := by
  refine ⟨l, [], false, Does.of_eq hrep hr, ?_⟩
  rw [hitems, List.append_nil]

theorem Does.follows_put {r : Option (State × Bool)} {items : List Addr}
    (hdoes : Does mem₀ s r l [] true) (hitems : l.map Prod.snd = items) (p : Addr) :
    Follows mem₀ s r q (q.put items (some p)) := by
  refine ⟨l, [], true, hdoes, ?_⟩
  rw [hitems, List.append_nil]
  rfl

theorem ne_zero_of_fresh (hfresh : fresh s p = true) : p ≠ 0 ∧ s.mem p = none := by
  obtain ⟨hp0, hp⟩ := of_decide_eq_true hfresh
  exact ⟨hp0, Option.isNone_iff_eq_none.mp hp⟩

theorem Rep.follows {label : Label} (hrep : Rep mem₀ s l) (hitems : l.map Prod.snd = q.items)
    (hallowed : allowed s label = true) : Follows mem₀ s (call s label) q (q.step label) := by
  cases label with
  | prepend data node =>
    obtain ⟨hdata, hnode⟩ := of_decide_eq_true hallowed
    cases node with
    | none => exact hrep.follows_false hitems (by simp [call, listPrepend, hdata])
    | some p =>
      obtain ⟨hp0, hp⟩ := ne_zero_of_fresh hnode
      exact (hrep.prepend hdata hp0 hp).follows_put (by rw [List.map_cons, hitems]) p
  | append data node =>
    obtain ⟨hdata, hnode⟩ := of_decide_eq_true hallowed
    cases node with
    | none => exact hrep.follows_false hitems (by simp [call, listAppend, hdata])
    | some p =>
      obtain ⟨hp0, hp⟩ := ne_zero_of_fresh hnode
      refine (hrep.append hdata hp0 hp).follows_put ?_ p
      rw [List.map_append, hitems]
      rfl
  | insertAfter index data node =>
    obtain ⟨hdata, hnode, hprev⟩ := of_decide_eq_true hallowed
    obtain ⟨a, ha, ha0⟩ := (Option.any_eq_true _ _).mp hprev
    have ha0 : a ≠ 0 := of_decide_eq_true ha0
    obtain ⟨l₁, l₂, rfl, rfl, hchain⟩ := hrep.nodeAt_eq ha
    have hcall : call s (.insertAfter l₁.length data node) = listInsertAfter s a data node := by
      simp [call, ha]
    rw [hcall]
    cases node with
    | none => exact hrep.follows_false hitems (by simp [listInsertAfter, hdata, ha0])
    | some p =>
      obtain ⟨hp0, hp⟩ := ne_zero_of_fresh hnode
      cases l₂ with
      | nil => exact absurd hchain ha0
      | cons n l₂ =>
        obtain ⟨b, x⟩ := n
        obtain ⟨rfl, -⟩ := hchain
        refine (hrep.insertAfter hdata hp0 hp).follows_put ?_ p
        rw [insertIdx_map, hitems]
  | remove data =>
    have hdata : data ≠ 0 := of_decide_eq_true hallowed
    obtain ⟨hnotMem, hmem⟩ := hrep.remove_spec hdata
    rw [hitems] at hnotMem hmem
    by_cases hd : data ∈ q.items
    · rw [Sequence.step, if_pos hd]
      refine ⟨_, [data], true, hmem hd, ?_⟩
      rw [map_eraseP, hitems]
    · rw [Sequence.step, if_neg hd]
      exact hrep.follows_false hitems (hnotMem hd)
  | clear =>
    obtain ⟨s', hs', hrest⟩ := hrep.clear
    refine ⟨[], l.map Prod.snd, true, ⟨s', by simp [call, hs'], hrest⟩, ?_⟩
    rw [hitems]
    rfl

theorem Refines.step {label : Label} (href : Refines mem₀ freeCb c q)
    (hallowed : allowed c.state label = true) :
    ∃ c', step c label = .ok c' ∧ Refines mem₀ freeCb c' (q.step label) := by
  obtain ⟨l, hrep, hitems⟩ := href.nodes
  obtain ⟨l', released, b, ⟨s', hcall, hrep', hcb, hcalls⟩, hq⟩ := hrep.follows hitems hallowed
  refine ⟨{ state := s', returned := c.returned ++ [b] }, ?_, ⟨l', hrep', ?_⟩, ?_, ?_, ?_⟩
  · simp [LinkedList.step, hallowed, hcall]
  · rw [hq]
  · exact hcb.trans href.callback
  · rw [hq, hcalls, href.calls, href.callback]
    cases freeCb <;> rfl
  · rw [hq, href.returned]

theorem allowed_of_step {label : Label} (hstep : step c label = .ok c') :
    allowed c.state label = true := by
  by_contra hnot
  rw [step, if_neg hnot] at hstep
  cases hstep

theorem Refines.run {labels : List Label} (hrun : Run (Next LinkedList.step) c labels c')
    (href : Refines mem₀ freeCb c q) :
    Refines mem₀ freeCb c' (labels.foldl Sequence.step q) := by
  induction hrun with
  | nil => exact href
  | snoc _ hlast ih =>
    obtain ⟨c'', hstep, href'⟩ := ih.step (allowed_of_step hlast)
    obtain rfl := Except.ok.inj (hlast.symm.trans hstep)
    rw [List.foldl_concat]
    exact href'

theorem step_of_allocationFails {label : Label} (hfails : label.allocationFails)
    (hallowed : allowed c.state label = true) :
    step c label = .ok { c with returned := c.returned ++ [false] } := by
  cases label with
  | prepend data node =>
    obtain rfl := hfails
    have hdata : data ≠ 0 := (of_decide_eq_true hallowed).1
    simp [step, hallowed, call, listPrepend, hdata]
  | append data node =>
    obtain rfl := hfails
    have hdata : data ≠ 0 := (of_decide_eq_true hallowed).1
    simp [step, hallowed, call, listAppend, hdata]
  | insertAfter index data node =>
    obtain rfl := hfails
    obtain ⟨hdata, -, hprev⟩ := of_decide_eq_true hallowed
    obtain ⟨a, ha, ha0⟩ := (Option.any_eq_true _ _).mp hprev
    have ha0 : a ≠ 0 := of_decide_eq_true ha0
    simp [step, hallowed, call, listInsertAfter, ha, ha0, hdata]
  | remove data => exact hfails.elim
  | clear => exact hfails.elim

/-- For all calls that a client makes on a list, in whatever heap and with whatever
outcomes of the allocations: the list is the sequence that the operations give, the
calls return what they return, and `free_cb` is called for what is taken out. No
call fails, and one whose allocation fails changes nothing. -/
theorem list_refines_sequence (mem₀ : Heap (Node Addr)) (freeCb : Bool) (labels : List Label)
    (c : Client) (hrun : Run (Next step) (start mem₀ freeCb) labels c) :
    Refines mem₀ freeCb c (labels.foldl Sequence.step Sequence.empty) ∧
    (c.state.list.tail = 0 ↔ c.state.list.head = 0) ∧
    (∀ label, allowed c.state label = true → ∃ c', step c label = .ok c') ∧
    ∀ label c', step c label = .ok c' → label.allocationFails →
      c' = { c with returned := c.returned ++ [false] } := by
  have href := refines_start.run hrun
  obtain ⟨l, hrep, -⟩ := href.nodes
  refine ⟨href, ?_, ?_, ?_⟩
  · rw [hrep.tail_eq_zero_iff, hrep.head_eq_zero_iff]
  · intro label hallowed
    obtain ⟨c', hstep, -⟩ := href.step hallowed
    exact ⟨c', hstep⟩
  · intro label c' hstep hfails
    have hfail := step_of_allocationFails hfails (allowed_of_step hstep)
    exact Except.ok.inj (hstep.symm.trans hfail)

/-- Insertions at both ends and in between, a failed one, an element that is there
twice, and one that is not there. -/
def insertAndRemove : List Label :=
  [.prepend 5 (some 100), .append 6 (some 200), .insertAfter 0 5 (some 300), .append 9 none,
    .remove 5, .remove 7, .remove 6, .append 8 (some 200)]

theorem list_refines_sequence_insertAndRemove :
    ∃ c : Client, c.state.list = { head := 300, tail := 200, length := 2, freeCb := true } ∧
      Refines (fun _ => none) true c
        { items := [5, 8]
          released := [5, 6]
          returned := [true, true, true, false, true, false, true, true] } := by
  have hend : ((exec (fun _ _ => true) step (start (fun _ => none) true) insertAndRemove).any
      fun c => decide (c.state.list =
        { head := 300, tail := 200, length := 2, freeCb := true })) = true := by
    decide
  obtain ⟨c, hc, hend⟩ := (Option.any_eq_true _ _).mp hend
  obtain ⟨href, -⟩ := list_refines_sequence _ _ _ c (Run.of_exec_true hc)
  refine ⟨c, of_decide_eq_true hend, ?_⟩
  have hseq : insertAndRemove.foldl Sequence.step Sequence.empty =
      { items := [5, 8]
        released := [5, 6]
        returned := [true, true, true, false, true, false, true, true] } := by
    decide
  rw [← hseq]
  exact href

end LinkedList

end Osi
