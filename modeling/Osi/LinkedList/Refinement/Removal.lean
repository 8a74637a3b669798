import Osi.LinkedList.Refinement.Nodes

/-!
# The removal of nodes

`list_remove` takes out the first node with the data, and `list_clear` all of them; each
node is released after `free_cb` was called on its data.
-/

namespace Osi

open Memory Transition

namespace LinkedList

variable {mem₀ mem' : Heap (Node Addr)} {s s' : State} {l l' l₁ l₂ : List (Addr × Addr)}
  {a p data x : Addr}

def freed (s : State) (p data : Addr) : State where
  mem := Function.update s.mem p none
  list := { s.list with length := s.list.length - 1 }
  calls := s.calls ++ if s.list.freeCb then [data] else []

theorem listFreeNode_eq {n : Node Addr} (hp0 : p ≠ 0) (hp : s.mem p = some n) :
    listFreeNode s p = some (freed s p n.data, n.next) := by
  cases hcb : s.list.freeCb <;> simp [listFreeNode, freed, hp0, load, hp, free_eq hp, hcb]

namespace Rep

theorem removeHead (hrep : Rep mem₀ s ((p, data) :: l)) (hdata : data ≠ 0) :
    Does mem₀ s (listRemove s data) l [data] true := by
  obtain ⟨hhead, next, hp, hchain⟩ := hrep.chain
  have hp0 : p ≠ 0 := by
    rintro rfl
    exact hrep.null (by simp)
  have hpl : p ∉ addrs l := (List.nodup_cons.mp hrep.nodup).1
  have hempty : listIsEmpty s = false := by
    rw [← Bool.not_eq_true, hrep.isEmpty_iff]
    exact List.cons_ne_nil _ _
  have hlast : (if s.list.tail = p then next else s.list.tail) = lastAddr l := by
    rw [hrep.tail]
    by_cases hl : l = []
    · subst hl
      exact (if_pos rfl).trans hchain
    · rw [lastAddr_cons hl]
      refine if_neg fun heq => ?_
      exact hpl (heq ▸ lastAddr_mem hl)
  refine ⟨_, ?_, hrep.remove (List.Perm.refl _) (hchain.update hpl none) hlast
    (Function.update_self ..) fun a hap _ => Function.update_of_ne hap _ _, rfl, rfl⟩
  simp [listRemove, hdata, hempty, load, hhead, hp, listFreeNode_eq hp0 hp, freed]

theorem removeAfter (hrep : Rep mem₀ s (l₁ ++ (a, x) :: (p, data) :: l₂)) (fuel : ℕ) :
    Does mem₀ s (removeLoop (fuel + 1) s a p data) (l₁ ++ (a, x) :: l₂) [data] true := by
  obtain ⟨-, q, ha, rfl, next, hp, -⟩ := segment_through.mp hrep.chain
  have hp0 : q ≠ 0 := by
    rintro rfl
    exact hrep.null (by simp)
  have hne : a ≠ q := by
    rintro rfl
    exact (not_mem_of_nodup hrep.nodup).2 (by simp)
  have hql₂ : q ∉ addrs l₂ := by
    have hnodup := hrep.nodup
    rw [List.append_cons] at hnodup
    exact (not_mem_of_nodup hnodup).2
  have ha' : Function.update s.mem q none a = some ⟨q, x⟩ := by
    rw [Function.update_of_ne hne, ha]
  have hlast : (if s.list.tail = q then a else s.list.tail) = lastAddr (l₁ ++ (a, x) :: l₂) := by
    rw [hrep.tail, lastAddr_append_cons, lastAddr_append_cons,
      lastAddr_cons (List.cons_ne_nil _ _)]
    exact lastAddr_replace hql₂
  refine ⟨_, ?_, hrep.remove perm_insert (hrep.chain.erase hrep.nodup hp) hlast ?_ ?_, rfl, rfl⟩
  · simp [removeLoop, hp0, load, hp, listFreeNode_eq hp0 hp, freed, ha', store_eq ha']
  · rw [Function.update_of_ne (Ne.symm hne), Function.update_self]
  · intro b hbq hb
    simp only [addrs_append, addrs_cons, List.mem_append, List.mem_cons, not_or] at hb
    rw [Function.update_of_ne hb.2.1, Function.update_of_ne hbq]

theorem removeLoop_spec {node : Addr} {fuel : ℕ} (hrep : Rep mem₀ s (l₁ ++ (a, x) :: l₂))
    (hnode : Segment s.mem node l₂ 0) (hfuel : l₂.length < fuel) (data : Addr) :
    (data ∉ l₂.map Prod.snd → removeLoop fuel s a node data = some (s, false)) ∧
    (data ∈ l₂.map Prod.snd → Does mem₀ s (removeLoop fuel s a node data)
      (l₁ ++ (a, x) :: l₂.eraseP fun n => n.2 = data) [data] true) := by
  induction l₂ generalizing l₁ a x node fuel with
  | nil =>
    obtain ⟨fuel, rfl⟩ := Nat.exists_eq_add_one_of_ne_zero (Nat.ne_zero_of_lt hfuel)
    obtain rfl := hnode
    exact ⟨fun _ => by simp [removeLoop], fun hmem => by cases hmem⟩
  | cons n l₂ ih =>
    obtain ⟨fuel, rfl⟩ := Nat.exists_eq_add_one_of_ne_zero (Nat.ne_zero_of_lt hfuel)
    obtain ⟨p, y⟩ := n
    obtain ⟨rfl, next, hp, hnext⟩ := hnode
    by_cases hy : y = data
    · subst hy
      refine ⟨fun hmem => absurd List.mem_cons_self hmem, fun _ => ?_⟩
      rw [List.eraseP_cons_of_pos (by simp)]
      exact hrep.removeAfter fuel
    · have hp0 : node ≠ 0 := by
        rintro rfl
        exact hrep.null (by simp)
      have hloop : removeLoop (fuel + 1) s a node data = removeLoop fuel s node next data := by
        simp [removeLoop, hp0, load, hp, hy]
      rw [List.append_cons] at hrep
      obtain ⟨hnotMem, hmem⟩ := ih hrep hnext (Nat.lt_of_succ_lt_succ hfuel)
      rw [hloop, List.eraseP_cons_of_neg (by simpa using hy), List.map_cons, List.mem_cons,
        List.append_cons]
      refine ⟨fun h => hnotMem fun hd => h (.inr hd), fun h => hmem ?_⟩
      exact h.resolve_left (Ne.symm hy)

theorem remove_spec (hrep : Rep mem₀ s l) (hdata : data ≠ 0) :
    (data ∉ l.map Prod.snd → listRemove s data = some (s, false)) ∧
    (data ∈ l.map Prod.snd →
      Does mem₀ s (listRemove s data) (l.eraseP fun n => n.2 = data) [data] true) := by
  cases l with
  | nil =>
    refine ⟨fun _ => ?_, fun hmem => by cases hmem⟩
    simp [listRemove, hdata, hrep.isEmpty_iff.mpr rfl]
  | cons n l =>
    obtain ⟨p, y⟩ := n
    by_cases hy : y = data
    · subst hy
      refine ⟨fun hmem => absurd List.mem_cons_self hmem, fun _ => ?_⟩
      rw [List.eraseP_cons_of_pos (by simp)]
      exact hrep.removeHead hdata
    · obtain ⟨hhead, next, hp, hchain⟩ := hrep.chain
      have hempty : listIsEmpty s = false := by
        rw [← Bool.not_eq_true, hrep.isEmpty_iff]
        exact List.cons_ne_nil _ _
      have hloop : listRemove s data = removeLoop maxNodes s p next data := by
        simp [listRemove, hdata, hempty, load, hhead, hp, hy]
      have hfuel : l.length < maxNodes := by
        have hlt := length_lt_of_nodup hrep.nodup hrep.null
        rw [length_addrs, List.length_cons] at hlt
        exact Nat.lt_of_succ_lt hlt
      have hrep' : Rep mem₀ s ([] ++ (p, y) :: l) := hrep
      obtain ⟨hnotMem, hmem⟩ := hrep'.removeLoop_spec hchain hfuel data
      rw [hloop, List.eraseP_cons_of_neg (by simpa using hy), List.map_cons, List.mem_cons]
      refine ⟨fun h => hnotMem fun hd => h (.inr hd), fun h => hmem ?_⟩
      exact h.resolve_left (Ne.symm hy)

theorem clearLoop_eq {node : Addr} {fuel : ℕ} (hchain : Segment s.mem node l 0)
    (hnodup : (addrs l).Nodup) (hnull : 0 ∉ addrs l) (hfuel : l.length < fuel) :
    ∃ s', clearLoop fuel s node = some s' ∧ s'.list.freeCb = s.list.freeCb ∧
      s'.calls = s.calls ++ (if s.list.freeCb then l.map Prod.snd else []) ∧
      (∀ a ∈ addrs l, s'.mem a = none) ∧ ∀ a, a ∉ addrs l → s'.mem a = s.mem a := by
  induction l generalizing s node fuel with
  | nil =>
    obtain ⟨fuel, rfl⟩ := Nat.exists_eq_add_one_of_ne_zero (Nat.ne_zero_of_lt hfuel)
    obtain rfl := hchain
    refine ⟨s, by simp [clearLoop], rfl, by simp, ?_, fun _ _ => rfl⟩
    intro a ha
    cases ha
  | cons n l ih =>
    obtain ⟨fuel, rfl⟩ := Nat.exists_eq_add_one_of_ne_zero (Nat.ne_zero_of_lt hfuel)
    obtain ⟨p, y⟩ := n
    obtain ⟨rfl, next, hp, hchain⟩ := hchain
    rw [addrs_cons, List.nodup_cons] at hnodup
    rw [addrs_cons, List.mem_cons, not_or] at hnull
    have hfree := listFreeNode_eq (Ne.symm hnull.1) hp
    have hchain' : Segment (freed s node y).mem next l 0 := hchain.update hnodup.1 none
    obtain ⟨s', hs', hcb, hcalls, hin, hout⟩ := ih hchain' hnodup.2 hnull.2
      (Nat.lt_of_succ_lt_succ hfuel)
    refine ⟨s', ?_, hcb, ?_, ?_, ?_⟩
    · simp [clearLoop, Ne.symm hnull.1, hfree, hs']
    · rw [hcalls]
      cases hcb : s.list.freeCb <;> simp [freed, hcb]
    · intro a ha
      by_cases hal : a ∈ addrs l
      · exact hin a hal
      · obtain rfl := (List.mem_cons.mp ha).resolve_right hal
        exact (hout _ hal).trans (Function.update_self ..)
    · intro a ha
      rw [addrs_cons, List.mem_cons, not_or] at ha
      exact (hout a ha.2).trans (Function.update_of_ne ha.1 _ _)

theorem clear (hrep : Rep mem₀ s l) :
    ∃ s', listClear s = some s' ∧ Rep mem₀ s' [] ∧ s'.list.freeCb = s.list.freeCb ∧
      s'.calls = s.calls ++ if s.list.freeCb then l.map Prod.snd else [] := by
  have hfuel : l.length < maxNodes := by
    rw [← length_addrs]
    exact length_lt_of_nodup hrep.nodup hrep.null
  obtain ⟨s', hs', hcb, hcalls, hin, hout⟩ :=
    clearLoop_eq hrep.chain hrep.nodup hrep.null hfuel
  refine ⟨{ s' with list := { s'.list with head := 0, tail := 0, length := 0 } }, ?_,
    ⟨rfl, List.nodup_nil, List.not_mem_nil, rfl, rfl, ?_, ?_⟩, hcb, hcalls⟩
  · simp [listClear, hs']
  · intro a _
    by_cases ha : a ∈ addrs l
    · exact (hin a ha).trans (hrep.new a ha).symm
    · exact (hout a ha).trans (hrep.outside a ha)
  · intro a ha
    cases ha

end Rep

end LinkedList

end Osi
