import Osi.LinkedList.Basic
import Mathlib.Data.List.Perm.Basic

/-!
# The list as a sequence

`Rep` relates a list to the nodes it consists of, in their order. Each function
is described by what it does to these nodes: a new one is put in, or one is taken
out, and then head, tail and length fit the new nodes again. The data of the nodes
is the abstract sequence that `Sequence.step` works on.
-/

namespace Osi

open Memory Transition

namespace LinkedList

variable {mem₀ mem' : Heap (Node Addr)} {s s' : State} {l l' l₁ l₂ : List (Addr × Addr)}
  {a p data x : Addr}

/-- The list consists of the nodes `l`, which were not allocated in the heap `mem₀`;
the rest of the heap is as it was there. -/
structure Rep (mem₀ : Heap (Node Addr)) (s : State) (l : List (Addr × Addr)) : Prop where
  chain : Segment s.mem s.list.head l 0
  nodup : (addrs l).Nodup
  null : 0 ∉ addrs l
  tail : s.list.tail = lastAddr l
  length : s.list.length.toNat = l.length
  outside : ∀ a, a ∉ addrs l → s.mem a = mem₀ a
  new : ∀ a ∈ addrs l, mem₀ a = none

/-- A call returns `b`. It leaves the nodes `l` and passes `released` to `free_cb`, if
there is one. -/
def Does (mem₀ : Heap (Node Addr)) (s : State) (r : Option (State × Bool))
    (l : List (Addr × Addr)) (released : List Addr) (b : Bool) : Prop :=
  ∃ s', r = some (s', b) ∧ Rep mem₀ s' l ∧ s'.list.freeCb = s.list.freeCb ∧
    s'.calls = s.calls ++ if s.list.freeCb then released else []

theorem rep_listNew (mem₀ : Heap (Node Addr)) (freeCb : Bool) :
    Rep mem₀ (listNew mem₀ freeCb) [] where
  chain := rfl
  nodup := List.nodup_nil
  null := List.not_mem_nil
  tail := rfl
  length := rfl
  outside _ _ := rfl
  new _ ha := by cases ha

theorem perm_insert {n n' : Addr × Addr} :
    (l₁ ++ n :: n' :: l₂).Perm (n' :: (l₁ ++ n :: l₂)) := by
  rw [List.append_cons]
  refine List.perm_middle.trans ?_
  rw [← List.append_cons]

theorem Does.of_eq {r : Option (State × Bool)} {b : Bool} (hrep : Rep mem₀ s l)
    (hr : r = some (s, b)) : Does mem₀ s r l [] b := by
  refine ⟨s, hr, hrep, rfl, ?_⟩
  rw [ite_self, List.append_nil]

namespace Rep

theorem isEmpty_iff (hrep : Rep mem₀ s l) : listIsEmpty s = true ↔ l = [] := by
  rw [listIsEmpty, decide_eq_true_iff, ← UInt64.toNat_inj, hrep.length]
  exact List.length_eq_zero_iff

theorem tail_eq_zero_iff (hrep : Rep mem₀ s l) : s.list.tail = 0 ↔ l = [] := by
  rw [hrep.tail]
  constructor
  · intro hzero
    by_contra hne
    exact hrep.null (hzero ▸ lastAddr_mem hne)
  · rintro rfl
    rfl

theorem head_eq_zero_iff (hrep : Rep mem₀ s l) : s.list.head = 0 ↔ l = [] := by
  cases l with
  | nil => exact iff_of_true hrep.chain rfl
  | cons n l =>
    obtain ⟨a, x⟩ := n
    have hnull := hrep.null
    obtain ⟨hhead, -⟩ := hrep.chain
    rw [addrs_cons, List.mem_cons, not_or] at hnull
    refine iff_of_false ?_ (List.cons_ne_nil _ _)
    rw [hhead]
    exact Ne.symm hnull.1

/-! ### One node more -/

theorem length_add_one (hrep : Rep mem₀ s l) (hp0 : p ≠ 0) (hp : s.mem p = none) :
    (s.list.length + 1).toNat = l.length + 1 := by
  have hnodup : (p :: addrs l).Nodup :=
    List.nodup_cons.mpr ⟨hrep.chain.not_mem hp, hrep.nodup⟩
  have hnull : (0 : Addr) ∉ p :: addrs l := by
    rw [List.mem_cons, not_or]
    exact ⟨Ne.symm hp0, hrep.null⟩
  have hlt := length_lt_of_nodup hnodup hnull
  rw [List.length_cons, length_addrs] at hlt
  rw [UInt64.toNat_add, hrep.length]
  exact Nat.mod_eq_of_lt hlt

theorem add {head tail : Addr} (hrep : Rep mem₀ s l) (hp0 : p ≠ 0) (hp : s.mem p = none)
    (hperm : l'.Perm ((p, data) :: l)) (hchain : Segment mem' head l' 0)
    (htail : tail = lastAddr l') (hmem : ∀ a, a ∉ addrs l' → mem' a = s.mem a) :
    Rep mem₀ { s with
      mem := mem'
      list := { s.list with head := head, tail := tail, length := s.list.length + 1 } } l' := by
  have haddrs : (addrs l').Perm (p :: addrs l) := hperm.map Prod.fst
  have hpl := hrep.chain.not_mem hp
  refine ⟨hchain, ?_, ?_, htail, ?_, ?_, ?_⟩
  · exact haddrs.nodup_iff.mpr (List.nodup_cons.mpr ⟨hpl, hrep.nodup⟩)
  · rw [haddrs.mem_iff, List.mem_cons, not_or]
    exact ⟨Ne.symm hp0, hrep.null⟩
  · rw [hperm.length_eq]
    exact hrep.length_add_one hp0 hp
  · intro a ha
    refine (hmem a ha).trans (hrep.outside a ?_)
    rw [haddrs.mem_iff, List.mem_cons, not_or] at ha
    exact ha.2
  · intro a ha
    rw [haddrs.mem_iff, List.mem_cons] at ha
    rcases ha with rfl | ha
    · exact (hrep.outside _ hpl).symm.trans hp
    · exact hrep.new a ha

theorem prepend (hrep : Rep mem₀ s l) (hdata : data ≠ 0) (hp0 : p ≠ 0)
    (hp : s.mem p = none) :
    Does mem₀ s (listPrepend s data (some p)) ((p, data) :: l) [] true := by
  refine ⟨_, ?_, hrep.add hp0 hp (List.Perm.refl _)
    ⟨rfl, s.list.head, Function.update_self .., hrep.chain.update (hrep.chain.not_mem hp) _⟩
    rfl ?_, rfl, ?_⟩
  · have hlast : (if s.list.tail = 0 then p else s.list.tail) = lastAddr ((p, data) :: l) := by
      by_cases hl : l = []
      · rw [if_pos (hrep.tail_eq_zero_iff.mpr hl), hl]
        rfl
      · rw [if_neg (fun hzero => hl (hrep.tail_eq_zero_iff.mp hzero)), hrep.tail]
        exact (lastAddr_cons hl).symm
    simp [listPrepend, hdata, alloc, hp0, hp, hlast]
  · intro a ha
    rw [addrs_cons, List.mem_cons, not_or] at ha
    exact Function.update_of_ne ha.1 _ _
  · simp

/-- A node is put in after the node `a`, as `list_insert_after` and `list_append`
do it. -/
theorem insert {n : Node Addr} (hrep : Rep mem₀ s (l₁ ++ (a, x) :: l₂)) (hp0 : p ≠ 0)
    (hp : s.mem p = none) (ha : s.mem a = some n) (data : Addr) :
    a ≠ p ∧ Rep mem₀ { s with
      mem := Function.update (Function.update s.mem p (some ⟨n.next, data⟩)) a
        (some { n with next := p })
      list := { s.list with
        tail := if s.list.tail = a then p else s.list.tail
        length := s.list.length + 1 } } (l₁ ++ (a, x) :: (p, data) :: l₂) := by
  obtain ⟨-, next, ha', -⟩ := segment_through.mp hrep.chain
  obtain rfl := Option.some.inj (ha.symm.trans ha')
  have hne : a ≠ p := by
    rintro rfl
    rw [hp] at ha
    cases ha
  have hlast : (if s.list.tail = a then p else s.list.tail) =
      lastAddr (l₁ ++ (a, x) :: (p, data) :: l₂) := by
    rw [hrep.tail, lastAddr_append_cons, lastAddr_append_cons,
      lastAddr_cons (List.cons_ne_nil _ _)]
    exact lastAddr_replace (not_mem_of_nodup hrep.nodup).2
  refine ⟨hne, hrep.add hp0 hp perm_insert (hrep.chain.insert hrep.nodup hp ha) hlast ?_⟩
  intro b hb
  simp only [addrs_append, addrs_cons, List.mem_append, List.mem_cons, not_or] at hb
  rw [Function.update_of_ne hb.2.1, Function.update_of_ne hb.2.2.1]

theorem insertAfter (hrep : Rep mem₀ s (l₁ ++ (a, x) :: l₂)) (hdata : data ≠ 0) (hp0 : p ≠ 0)
    (hp : s.mem p = none) :
    Does mem₀ s (listInsertAfter s a data (some p)) (l₁ ++ (a, x) :: (p, data) :: l₂) []
      true := by
  obtain ⟨-, next, ha, -⟩ := segment_through.mp hrep.chain
  obtain ⟨hne, hrep'⟩ := hrep.insert hp0 hp ha data
  have ha0 : a ≠ 0 := by
    rintro rfl
    exact hrep.null (by simp)
  have ha' : Function.update s.mem p (some ⟨next, data⟩) a = some ⟨next, x⟩ := by
    rw [Function.update_of_ne hne, ha]
  refine ⟨_, ?_, hrep', rfl, ?_⟩
  · simp [listInsertAfter, ha0, hdata, load, ha, alloc, hp0, hp, store_eq ha']
  · simp

theorem append (hrep : Rep mem₀ s l) (hdata : data ≠ 0) (hp0 : p ≠ 0)
    (hp : s.mem p = none) :
    Does mem₀ s (listAppend s data (some p)) (l ++ [(p, data)]) [] true := by
  rcases List.eq_nil_or_concat l with rfl | ⟨l₁, ⟨a, x⟩, rfl⟩
  · -- in the empty list the new node is the first one too
    have htail := hrep.tail_eq_zero_iff.mpr rfl
    obtain ⟨s', hs', hrest⟩ := hrep.prepend hdata hp0 hp
    refine ⟨s', ?_, hrest⟩
    rw [← hs']
    simp [listAppend, listPrepend, htail, hrep.head_eq_zero_iff.mpr rfl]
  · rw [List.concat_eq_append] at hrep ⊢
    have htail : s.list.tail = a := hrep.tail.trans lastAddr_concat
    obtain ⟨-, next, ha, rfl⟩ := segment_through.mp hrep.chain
    obtain ⟨hne, hrep'⟩ := hrep.insert hp0 hp ha data
    have ha0 : a ≠ 0 := by
      rintro rfl
      exact hrep.null (by simp)
    have ha' : Function.update s.mem p (some ⟨0, data⟩) a = some ⟨0, x⟩ := by
      rw [Function.update_of_ne hne, ha]
    rw [List.append_assoc]
    refine ⟨_, ?_, hrep', rfl, ?_⟩
    · simp [listAppend, hdata, load, htail, ha0, ha', alloc, hp0, hp, store_eq ha']
    · simp

/-! ### One node less -/

theorem remove {head tail : Addr} {calls : List Addr} (hrep : Rep mem₀ s l)
    (hperm : l.Perm ((p, data) :: l')) (hchain : Segment mem' head l' 0)
    (htail : tail = lastAddr l') (hp : mem' p = none)
    (hmem : ∀ a, a ≠ p → a ∉ addrs l' → mem' a = s.mem a) :
    Rep mem₀
      { mem := mem'
        list := { s.list with head := head, tail := tail, length := s.list.length - 1 }
        calls := calls } l' := by
  have haddrs : (addrs l).Perm (p :: addrs l') := hperm.map Prod.fst
  have hnodup := haddrs.nodup_iff.mp hrep.nodup
  have hnull := hrep.null
  rw [haddrs.mem_iff, List.mem_cons, not_or] at hnull
  refine ⟨hchain, (List.nodup_cons.mp hnodup).2, hnull.2, htail, ?_, ?_, ?_⟩
  · have hlength := hrep.length
    rw [hperm.length_eq, List.length_cons] at hlength
    change (s.list.length - 1).toNat = _
    rw [UInt64.toNat_sub_of_le]
    · rw [hlength, UInt64.toNat_one, Nat.add_sub_cancel]
    · rw [UInt64.le_iff_toNat_le, hlength, UInt64.toNat_one]
      omega
  · intro a ha
    by_cases hap : a = p
    · subst hap
      exact hp.trans (hrep.new a (haddrs.mem_iff.mpr List.mem_cons_self)).symm
    · refine (hmem a hap ha).trans (hrep.outside a ?_)
      rw [haddrs.mem_iff, List.mem_cons, not_or]
      exact ⟨hap, ha⟩
  · intro a ha
    exact hrep.new a (haddrs.mem_iff.mpr (List.mem_cons_of_mem p ha))

end Rep

end LinkedList

end Osi
