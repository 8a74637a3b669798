import Osi.Memory.Heap
import Mathlib.Data.List.Basic

/-!
# Linked segments

A `Segment` is a piece of a singly linked list in a heap: the nodes, with their
data, that the pointers lead through from one address to another. It says nothing
of the rest of the heap, so that it survives every change away from its nodes. A
node is put in after another one, or taken out after another one, by two changes
of the heap, whatever stands before and behind.
-/

namespace Memory

structure Node (α : Type*) where
  next : Addr
  data : α
  deriving DecidableEq, Repr

variable {α : Type*} {heap heap' : Heap (Node α)} {p q a b next : Addr} {x y : α}
  {l l₁ l₂ : List (Addr × α)}

def Segment (heap : Heap (Node α)) : Addr → List (Addr × α) → Addr → Prop
  | p, [], q => p = q
  | p, (a, x) :: l, q => p = a ∧ ∃ next, heap a = some ⟨next, x⟩ ∧ Segment heap next l q

def addrs (l : List (Addr × α)) : List Addr := l.map Prod.fst

def lastAddr (l : List (Addr × α)) : Addr := ((addrs l).getLast?).getD 0

@[simp]
theorem addrs_nil : addrs ([] : List (Addr × α)) = [] := rfl

@[simp]
theorem addrs_cons : addrs ((a, x) :: l) = a :: addrs l := rfl

@[simp]
theorem addrs_append : addrs (l₁ ++ l₂) = addrs l₁ ++ addrs l₂ := List.map_append

@[simp]
theorem length_addrs : (addrs l).length = l.length := List.length_map _

@[simp]
theorem lastAddr_nil : lastAddr ([] : List (Addr × α)) = 0 := rfl

@[simp]
theorem lastAddr_concat : lastAddr (l ++ [(a, x)]) = a := by
  simp [lastAddr]

theorem lastAddr_append (hne : l₂ ≠ []) : lastAddr (l₁ ++ l₂) = lastAddr l₂ := by
  obtain ⟨l, ⟨a, x⟩, rfl⟩ := (List.eq_nil_or_concat l₂).resolve_left hne
  rw [List.concat_eq_append, ← List.append_assoc, lastAddr_concat, lastAddr_concat]

@[simp]
theorem lastAddr_append_cons : lastAddr (l₁ ++ (a, x) :: l₂) = lastAddr ((a, x) :: l₂) :=
  lastAddr_append (List.cons_ne_nil _ _)

theorem lastAddr_cons (hne : l ≠ []) : lastAddr ((a, x) :: l) = lastAddr l :=
  show lastAddr ([(a, x)] ++ l) = lastAddr l from lastAddr_append hne

theorem lastAddr_mem (hne : l ≠ []) : lastAddr l ∈ addrs l := by
  obtain ⟨l, ⟨a, x⟩, rfl⟩ := (List.eq_nil_or_concat l).resolve_left hne
  rw [List.concat_eq_append, lastAddr_concat]
  simp

/-- The pointer to the last node, when the first node gives way to another one. -/
theorem lastAddr_replace (ha : a ∉ addrs l) :
    (if lastAddr ((a, x) :: l) = a then b else lastAddr ((a, x) :: l)) =
      lastAddr ((b, y) :: l) := by
  by_cases hl : l = []
  · subst hl
    exact if_pos rfl
  · rw [lastAddr_cons hl, lastAddr_cons hl]
    refine if_neg fun heq => ha ?_
    rw [← heq]
    exact lastAddr_mem hl

theorem segment_append :
    Segment heap p (l₁ ++ l₂) q ↔ ∃ r, Segment heap p l₁ r ∧ Segment heap r l₂ q := by
  induction l₁ generalizing p with
  | nil => simp [Segment]
  | cons n l₁ ih =>
    obtain ⟨a, x⟩ := n
    simp only [List.cons_append, Segment, ih]
    constructor
    · rintro ⟨hp, next, hnext, r, h₁, h₂⟩
      exact ⟨r, ⟨hp, next, hnext, h₁⟩, h₂⟩
    · rintro ⟨r, ⟨hp, next, hnext, h₁⟩, h₂⟩
      exact ⟨hp, next, hnext, r, h₁, h₂⟩

theorem segment_through :
    Segment heap p (l₁ ++ (a, x) :: l₂) q ↔
      Segment heap p l₁ a ∧ ∃ next, heap a = some ⟨next, x⟩ ∧ Segment heap next l₂ q := by
  rw [segment_append]
  constructor
  · rintro ⟨r, h₁, rfl, h₂⟩
    exact ⟨h₁, h₂⟩
  · rintro ⟨h₁, h₂⟩
    exact ⟨a, h₁, rfl, h₂⟩

/-- A segment does not see changes away from its nodes. -/
theorem Segment.congr (h : Segment heap p l q) (hheap : ∀ a ∈ addrs l, heap' a = heap a) :
    Segment heap' p l q := by
  induction l generalizing p with
  | nil => exact h
  | cons n l ih =>
    obtain ⟨a, x⟩ := n
    obtain ⟨hp, next, hnext, h⟩ := h
    rw [addrs_cons, List.forall_mem_cons] at hheap
    exact ⟨hp, next, hheap.1.trans hnext, ih h hheap.2⟩

theorem Segment.update (h : Segment heap p l q) (ha : a ∉ addrs l) (n : Option (Node α)) :
    Segment (Function.update heap a n) p l q := by
  refine h.congr fun b hb => Function.update_of_ne ?_ _ _
  rintro rfl
  exact ha hb

theorem Segment.isSome (h : Segment heap p l q) (ha : a ∈ addrs l) : (heap a).isSome := by
  induction l generalizing p with
  | nil => cases ha
  | cons n l ih =>
    obtain ⟨b, x⟩ := n
    obtain ⟨-, next, hnext, h⟩ := h
    rcases List.mem_cons.mp ha with rfl | ha
    · rw [hnext]
      rfl
    · exact ih h ha

/-- An address where nothing is allocated is none of the nodes. -/
theorem Segment.not_mem (h : Segment heap p l q) (ha : heap a = none) : a ∉ addrs l := by
  intro hmem
  have hsome := h.isSome hmem
  rw [ha] at hsome
  cases hsome

theorem not_mem_of_nodup (hnodup : (addrs (l₁ ++ (a, x) :: l₂)).Nodup) :
    a ∉ addrs l₁ ∧ a ∉ addrs l₂ := by
  rw [addrs_append, addrs_cons, List.nodup_middle, List.nodup_cons, List.mem_append,
    not_or] at hnodup
  exact hnodup.1

theorem Segment.insert (h : Segment heap p (l₁ ++ (a, x) :: l₂) q)
    (hnodup : (addrs (l₁ ++ (a, x) :: l₂)).Nodup) (hb : heap b = none)
    (ha : heap a = some ⟨next, x⟩) :
    Segment (Function.update (Function.update heap b (some ⟨next, y⟩)) a (some ⟨b, x⟩)) p
      (l₁ ++ (a, x) :: (b, y) :: l₂) q := by
  have hfresh := h.not_mem hb
  rw [addrs_append, addrs_cons, List.mem_append, List.mem_cons, not_or, not_or] at hfresh
  obtain ⟨hfresh₁, hne, hfresh₂⟩ := hfresh
  obtain ⟨ha₁, ha₂⟩ := not_mem_of_nodup hnodup
  obtain ⟨h₁, next', hnext, h₂⟩ := segment_through.mp h
  obtain rfl : next = next' := by
    rw [ha] at hnext
    exact congrArg Node.next (Option.some.inj hnext)
  refine segment_through.mpr ⟨?_, b, Function.update_self .., rfl, next, ?_, ?_⟩
  · exact (h₁.update hfresh₁ _).update ha₁ _
  · rw [Function.update_of_ne hne, Function.update_self]
  · exact (h₂.update hfresh₂ _).update ha₂ _

theorem Segment.erase (h : Segment heap p (l₁ ++ (a, x) :: (b, y) :: l₂) q)
    (hnodup : (addrs (l₁ ++ (a, x) :: (b, y) :: l₂)).Nodup)
    (hb : heap b = some ⟨next, y⟩) :
    Segment (Function.update (Function.update heap b none) a (some ⟨next, x⟩)) p
      (l₁ ++ (a, x) :: l₂) q := by
  obtain ⟨ha₁, ha₂⟩ := not_mem_of_nodup hnodup
  rw [addrs_cons, List.mem_cons, not_or] at ha₂
  rw [List.append_cons] at h hnodup
  obtain ⟨hb₁, hb₂⟩ := not_mem_of_nodup hnodup
  rw [addrs_append, List.mem_append, not_or] at hb₁
  obtain ⟨h₁, next', hnext, h₂⟩ := segment_through.mp h
  obtain rfl : next = next' := by
    rw [hb] at hnext
    exact congrArg Node.next (Option.some.inj hnext)
  obtain ⟨h₁, -⟩ := segment_through.mp h₁
  refine segment_through.mpr ⟨?_, next, Function.update_self .., ?_⟩
  · exact (h₁.update hb₁.1 _).update ha₁ _
  · exact (h₂.update hb₂ _).update ha₂.2 _

end Memory
