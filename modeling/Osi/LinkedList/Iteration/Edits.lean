import Osi.LinkedList.Foreach
import Osi.LinkedList.Refinement.Sequence
import Mathlib.Data.List.Sort

/-!
# The calls of a callback

A call of the callback inserts one element into the list or removes one. In a list that is
split at an element, it does so on one side, unless it removes that element.
-/

namespace Osi

open Memory Transition

namespace LinkedList

variable {mem₀ : Heap (Node Addr)} {s : State}

/-! ## The calls -/

def nodes (es : List Element) : List (Addr × Addr) := es.map fun e => (e.addr, e.data)

@[simp] theorem nodes_append (es es' : List Element) : nodes (es ++ es') = nodes es ++ nodes es' :=
  List.map_append

@[simp] theorem nodes_cons (e : Element) (es : List Element) :
    nodes (e :: es) = (e.addr, e.data) :: nodes es := rfl

theorem insertIdx_append {α : Type*} (l₁ l₂ : List α) (x : α) :
    (l₁ ++ l₂).insertIdx l₁.length x = l₁ ++ x :: l₂ := by
  induction l₁ with
  | nil => rfl
  | cons y l₁ ih => rw [List.cons_append, List.length_cons, List.insertIdx_succ_cons, ih,
      List.cons_append]

theorem editElements_append (es : List Element) (count : ℕ) (data p : Addr) :
    editElements es count (.append data (some p)) = es ++ [⟨count, p, data⟩] := rfl

theorem editElements_insertAfter (es : List Element) (count index : ℕ) (data p : Addr) :
    editElements es count (.insertAfter index data (some p)) =
      es.insertIdx (index + 1) ⟨count, p, data⟩ := rfl

theorem editElements_remove (es : List Element) (count : ℕ) (data : Addr) :
    editElements es count (.remove data) = es.eraseP fun e => e.data = data := rfl

theorem removedElements_remove (es : List Element) (data : Addr) :
    removedElements es (.remove data) = (es.find? fun e => e.data = data).toList := rfl

theorem mem_middle {α : Type*} {l₁ l₂ : List α} {x y : α} :
    y ∈ l₁ ++ x :: l₂ ↔ y = x ∨ y ∈ l₁ ++ l₂ := by
  rw [List.perm_middle.mem_iff, List.mem_cons]

/-- What a call does to the elements: nothing, one is put in, one is taken out, or all
are. -/
inductive Edit (es : List Element) (count : ℕ) : List Element → List Element → Prop
  | same : Edit es count es []
  | insert (l₁ l₂ : List Element) (e : Element) (hes : es = l₁ ++ l₂) (he : e.stamp = count) :
      Edit es count (l₁ ++ e :: l₂) []
  | remove (l₁ l₂ : List Element) (e : Element) (hes : es = l₁ ++ e :: l₂) :
      Edit es count (l₁ ++ l₂) [e]
  | clear : Edit es count [] es

theorem edit_of_label (es : List Element) (count : ℕ) (label : Label) :
    Edit es count (editElements es count label) (removedElements es label) := by
  cases label with
  | prepend data node =>
      cases node with
      | none => exact .same
      | some p => exact .insert [] es ⟨count, p, data⟩ rfl rfl
  | append data node =>
      cases node with
      | none => exact .same
      | some p => exact .insert es [] ⟨count, p, data⟩ (List.append_nil es).symm rfl
  | insertAfter index data node =>
      cases node with
      | none => exact .same
      | some p =>
          by_cases hindex : index + 1 ≤ es.length
          · have hsplit := (List.take_append_drop (index + 1) es).symm
            have hlen : (es.take (index + 1)).length = index + 1 := List.length_take_of_le hindex
            have hinsert := insertIdx_append (es.take (index + 1)) (es.drop (index + 1))
              ⟨count, p, data⟩
            rw [List.take_append_drop, hlen] at hinsert
            rw [editElements_insertAfter, hinsert]
            exact .insert _ _ _ hsplit rfl
          · rw [editElements_insertAfter, List.insertIdx_of_length_lt (by omega)]
            exact .same
  | remove data =>
      rw [editElements_remove, removedElements_remove]
      cases hfind : es.find? fun e => e.data = data with
      | none =>
          rw [List.eraseP_of_forall_not (by simpa using hfind), Option.toList_none]
          exact .same
      | some e =>
          obtain ⟨hdata, l₁, l₂, hes, hbefore⟩ := List.find?_eq_some_iff_append.mp hfind
          rw [hes, List.eraseP_append_right _ (by simpa using hbefore),
            List.eraseP_cons_of_pos (by simpa using hdata)]
          exact .remove l₁ l₂ e rfl
  | clear => exact .clear

theorem Rep.call_elements {es : List Element} {label : Label} (hrep : Rep mem₀ s (nodes es))
    (hallowed : allowed s label = true) (count : ℕ) :
    ∃ s' b, call s label = some (s', b) ∧ Rep mem₀ s' (nodes (editElements es count label)) := by
  cases label with
  | prepend data node =>
      obtain ⟨hdata, hnode⟩ := of_decide_eq_true hallowed
      cases node with
      | none => exact ⟨s, false, by simp [call, listPrepend, hdata], hrep⟩
      | some p =>
          obtain ⟨hp0, hp⟩ := ne_zero_of_fresh hnode
          obtain ⟨s', hs', hrep', -⟩ := hrep.prepend hdata hp0 hp
          exact ⟨s', true, hs', hrep'⟩
  | append data node =>
      obtain ⟨hdata, hnode⟩ := of_decide_eq_true hallowed
      cases node with
      | none => exact ⟨s, false, by simp [call, listAppend, hdata], hrep⟩
      | some p =>
          obtain ⟨hp0, hp⟩ := ne_zero_of_fresh hnode
          obtain ⟨s', hs', hrep', -⟩ := hrep.append hdata hp0 hp
          exact ⟨s', true, hs', by rw [editElements_append, nodes_append]; exact hrep'⟩
  | insertAfter index data node =>
      obtain ⟨hdata, hnode, hprev⟩ := of_decide_eq_true hallowed
      obtain ⟨a, ha, ha0⟩ := (Option.any_eq_true _ _).mp hprev
      have ha0 : a ≠ 0 := of_decide_eq_true ha0
      have hcall : call s (.insertAfter index data node) = listInsertAfter s a data node := by
        simp [call, ha]
      rw [hcall]
      cases node with
      | none => exact ⟨s, false, by simp [listInsertAfter, hdata, ha0], hrep⟩
      | some p =>
          obtain ⟨hp0, hp⟩ := ne_zero_of_fresh hnode
          obtain ⟨l₁, l₂, hsplit, hlen, hchain⟩ := hrep.nodeAt_eq ha
          obtain ⟨es₁, es₂, rfl, rfl, rfl⟩ := List.map_eq_append_iff.mp hsplit
          cases es₂ with
          | nil => exact absurd hchain ha0
          | cons e es₂ =>
              obtain ⟨rfl, -⟩ := hchain
              have hedit : editElements (es₁ ++ e :: es₂) count (.insertAfter index data (some p)) =
                  es₁ ++ e :: ⟨count, p, data⟩ :: es₂ := by
                have hinsert := insertIdx_append (es₁ ++ [e]) es₂ ⟨count, p, data⟩
                rw [List.length_append, List.length_singleton, List.append_assoc,
                  List.append_assoc] at hinsert
                rw [editElements_insertAfter, ← hlen, List.length_map]
                exact hinsert
              rw [nodes_append, nodes_cons] at hrep
              obtain ⟨s', hs', hrep', -⟩ := hrep.insertAfter hdata hp0 hp
              refine ⟨s', true, hs', ?_⟩
              rw [hedit, nodes_append, nodes_cons, nodes_cons]
              exact hrep'
  | remove data =>
      have hdata : data ≠ 0 := of_decide_eq_true hallowed
      have hedit : nodes (editElements es count (.remove data)) =
          (nodes es).eraseP fun n => n.2 = data := by
        rw [nodes, nodes, List.eraseP_map]
        rfl
      rw [hedit]
      obtain ⟨hnotMem, hmem⟩ := hrep.remove_spec hdata
      by_cases hd : data ∈ (nodes es).map Prod.snd
      · obtain ⟨s', hs', hrep', -⟩ := hmem hd
        exact ⟨s', true, hs', hrep'⟩
      · refine ⟨s, false, hnotMem hd, ?_⟩
        rw [List.eraseP_of_forall_not]
        · exact hrep
        · intro n hn hdata'
          exact hd (List.mem_map.mpr ⟨n, hn, of_decide_eq_true hdata'⟩)
  | clear =>
      obtain ⟨s', hs', hrep', -⟩ := hrep.clear
      exact ⟨s', true, by simp [call, hs'], hrep'⟩

theorem stamp_notMem {l₁ l₂ : List Element} {e : Element}
    (hnodup : ((l₁ ++ e :: l₂).map Element.stamp).Nodup) :
    e.stamp ∉ (l₁ ++ l₂).map Element.stamp := by
  rw [List.map_append, List.map_cons, List.nodup_middle, List.nodup_cons,
    ← List.map_append] at hnodup
  exact hnodup.1

namespace Edit

variable {es es' removed : List Element} {count : ℕ}

theorem mem (h : Edit es count es' removed) {e : Element} (he : e ∈ es') :
    e ∈ es ∨ e.stamp = count := by
  cases h with
  | same => exact .inl he
  | insert l₁ l₂ new hes hnew =>
      subst hes
      rcases mem_middle.mp he with rfl | he
      · exact .inr hnew
      · exact .inl he
  | remove l₁ l₂ old hes =>
      subst hes
      exact .inl (mem_middle.mpr (.inr he))
  | clear => cases he

theorem nodup (h : Edit es count es' removed) (hnodup : (es.map Element.stamp).Nodup)
    (hlt : ∀ e ∈ es, e.stamp < count) : (es'.map Element.stamp).Nodup := by
  cases h with
  | same => exact hnodup
  | insert l₁ l₂ new hes hnew =>
      subst hes
      rw [List.map_append, List.map_cons, List.nodup_middle, List.nodup_cons, ← List.map_append]
      refine ⟨fun hmem => ?_, hnodup⟩
      obtain ⟨e, he, heq⟩ := List.mem_map.mp hmem
      have := hlt e he
      omega
  | remove l₁ l₂ old hes =>
      subst hes
      refine hnodup.sublist (List.Sublist.map _ ?_)
      exact List.Sublist.append_left (List.sublist_cons_self old l₂) l₁
  | clear => exact List.nodup_nil

theorem removed_gone (h : Edit es count es' removed) (hnodup : (es.map Element.stamp).Nodup)
    {e : Element} (he : e ∈ removed) : e ∈ es ∧ e.stamp ∉ es'.map Element.stamp := by
  cases h with
  | same => cases he
  | insert => cases he
  | remove l₁ l₂ old hes =>
      subst hes
      obtain rfl := List.mem_singleton.mp he
      exact ⟨mem_middle.mpr (.inl rfl), stamp_notMem hnodup⟩
  | clear => exact ⟨he, List.not_mem_nil⟩

/-- The two sides of a split after a call that leaves the first element ahead. -/
theorem split (h : Edit es count es' removed) {behind ahead : List Element}
    (hes : es = behind ++ ahead) (hnodup : (es.map Element.stamp).Nodup)
    (hhead : ∀ e ∈ ahead.head?, e.stamp ∈ es'.map Element.stamp) :
    ∃ behind' ahead', es' = behind' ++ ahead' ∧ ahead'.head? = ahead.head? ∧
      (∀ e ∈ ahead', e ∈ ahead ∨ e.stamp = count) ∧ (∀ e ∈ ahead, e ∈ ahead' ∨ e ∈ removed) ∧
      ∀ n ≤ count, ((ahead'.map Element.stamp).filter (· < n)).Sublist
        ((ahead.map Element.stamp).filter (· < n)) := by
  cases h with
  | same => exact ⟨behind, ahead, hes, rfl, fun _ => .inl, fun _ => .inl, fun _ _ => .refl _⟩
  | insert l₁ l₂ new hsplit hnew =>
      subst hes
      obtain ⟨x, rfl, rfl⟩ | ⟨x, rfl, rfl⟩ := List.append_eq_append_iff.mp hsplit
      · -- behind the cursor comes first, so the new element is ahead or just behind it
        cases x with
        | nil =>
            refine ⟨behind ++ [new], l₂, by simp, by simp, fun _ => .inl, fun _ => .inl,
              fun _ _ => .refl _⟩
        | cons e x =>
            refine ⟨behind, e :: x ++ new :: l₂, by simp, rfl, ?_, ?_, ?_⟩
            · intro e' he'
              rcases mem_middle.mp he' with rfl | he'
              · exact .inr hnew
              · exact .inl he'
            · intro e' he'
              exact .inl (mem_middle.mpr (.inr he'))
            · intro n hn
              have hge : ¬ new.stamp < n := by omega
              simp [List.filter_append, List.filter_cons, hge]
      · exact ⟨l₁ ++ new :: x, ahead, by simp, rfl, fun _ => .inl, fun _ => .inl,
          fun _ _ => .refl _⟩
  | remove l₁ l₂ old hsplit =>
      have hgone : old.stamp ∉ (l₁ ++ l₂).map Element.stamp := by
        rw [hsplit] at hnodup
        exact stamp_notMem hnodup
      subst hes
      obtain ⟨x, rfl, rfl⟩ | ⟨x, rfl, hx⟩ := List.append_eq_append_iff.mp hsplit
      · cases x with
        | nil => exact absurd (hhead old rfl) hgone
        | cons e x =>
            refine ⟨behind, e :: x ++ l₂, by simp, rfl, ?_, ?_, ?_⟩
            · intro e' he'
              exact .inl (mem_middle.mpr (.inr he'))
            · intro e' he'
              rcases mem_middle.mp he' with rfl | he'
              · exact .inr (List.mem_singleton_self e')
              · exact .inl he'
            · intro n _
              refine List.Sublist.filter _ (List.Sublist.map _ ?_)
              exact List.Sublist.append_left (List.sublist_cons_self old l₂) (e :: x)
      · cases x with
        | nil =>
            rw [List.nil_append] at hx
            subst hx
            exact absurd (hhead old rfl) hgone
        | cons e x =>
            obtain ⟨rfl, rfl⟩ := List.cons_eq_cons.mp hx
            exact ⟨l₁ ++ x, ahead, by simp, rfl, fun _ => .inl, fun _ => .inl,
              fun _ _ => .refl _⟩
  | clear =>
      have hnil : ahead = [] := by
        cases ahead with
        | nil => rfl
        | cons e ahead => exact absurd (hhead e rfl) List.not_mem_nil
      subst hnil
      exact ⟨[], [], rfl, rfl, fun _ => .inl, fun _ => .inl, fun _ _ => .refl _⟩

end Edit

end LinkedList

end Osi
