import Mathlib.Data.List.DropRight
import Mathlib.Data.List.Basic

/-!
# Trimming a list

`trim p l` drops the elements with the property `p` from both ends of `l`. An
element without the property that stands somewhere in the list stops the
dropping from either side, so trimming around it happens on the two parts
separately (`trim_append_cons`).
-/

namespace Collection

variable {α : Type*} {p : α → Bool} {l l' : List α} {x : α}

/-- The list without the elements with the property at its ends. -/
def trim (p : α → Bool) (l : List α) : List α := (l.dropWhile p).rdropWhile p

structure Trimmed (p : α → Bool) (l : List α) : Prop where
  head : ∀ x, l.head? = some x → p x = false
  last : ∀ x, l.getLast? = some x → p x = false

instance : Decidable (Trimmed p l) :=
  decidable_of_iff
    ((∀ x ∈ l.head?, p x = false) ∧ ∀ x ∈ l.getLast?, p x = false)
    ⟨fun h => ⟨h.1, h.2⟩, fun h => ⟨h.head, h.last⟩⟩

theorem trimmed_of_forall (h : ∀ x ∈ l, p x = false) : Trimmed p l :=
  ⟨fun _ hx => h _ (List.mem_of_mem_head? hx), fun _ hx => h _ (List.mem_of_mem_getLast? hx)⟩

theorem dropWhile_eq_self (h : ∀ x, l.head? = some x → p x = false) :
    l.dropWhile p = l := by
  cases l with
  | nil => rfl
  | cons x l => rw [List.dropWhile_cons_of_neg (by simp [h x rfl])]

theorem rdropWhile_eq_self (h : ∀ x, l.getLast? = some x → p x = false) :
    l.rdropWhile p = l := by
  rw [List.rdropWhile_eq_self_iff]
  intro hne
  simp [h _ (List.getLast?_eq_getLast_of_ne_nil hne)]

theorem Trimmed.trim_eq (h : Trimmed p l) : trim p l = l := by
  rw [trim, dropWhile_eq_self h.head, rdropWhile_eq_self h.last]

theorem dropWhile_append_cons (hx : p x = false) :
    (l ++ x :: l').dropWhile p = l.dropWhile p ++ x :: l' := by
  induction l with
  | nil => rw [List.nil_append, List.dropWhile_cons_of_neg (by simp [hx])]; rfl
  | cons y l ih =>
      by_cases hy : p y = true
      · rw [List.cons_append, List.dropWhile_cons_of_pos hy, ih,
          List.dropWhile_cons_of_pos hy]
      · rw [List.cons_append, List.dropWhile_cons_of_neg hy,
          List.dropWhile_cons_of_neg hy, List.cons_append]

theorem rdropWhile_append_cons (hx : p x = false) :
    (l ++ x :: l').rdropWhile p = l ++ x :: l'.rdropWhile p := by
  have hrev : (l'.reverse ++ x :: l.reverse).dropWhile p =
      l'.reverse.dropWhile p ++ x :: l.reverse := dropWhile_append_cons hx
  simp only [List.rdropWhile, List.reverse_append, List.reverse_cons, List.append_assoc,
    List.singleton_append, hrev]
  simp

/-- An element that stays separates what is trimmed on its two sides. -/
theorem trim_append_cons (hx : p x = false) :
    trim p (l ++ x :: l') = l.dropWhile p ++ x :: l'.rdropWhile p := by
  rw [trim, dropWhile_append_cons hx, rdropWhile_append_cons hx]

theorem mem_of_mem_trim (h : x ∈ trim p l) : x ∈ l :=
  (List.dropWhile_sublist p).mem ((List.rdropWhile_prefix p _).mem h)

theorem length_trim_le : (trim p l).length ≤ l.length :=
  (List.rdropWhile_prefix p _).length_le.trans (List.dropWhile_sublist p).length_le

theorem head_dropWhile (h : (l.dropWhile p).head? = some x) : p x = false := by
  induction l with
  | nil => cases h
  | cons y l ih =>
      by_cases hy : p y = true
      · rw [List.dropWhile_cons_of_pos hy] at h
        exact ih h
      · rw [List.dropWhile_cons_of_neg hy, List.head?_cons] at h
        obtain rfl := Option.some.inj h
        exact Bool.of_not_eq_true hy

/-- What starts with an element that stays still starts with it after the
other end is trimmed. -/
theorem head_rdropWhile (h : ∀ y, l.head? = some y → p y = false) :
    (l.rdropWhile p).head? = l.head? := by
  cases l with
  | nil => rfl
  | cons y l =>
      have hsplit : ([] ++ y :: l).rdropWhile p = [] ++ y :: l.rdropWhile p :=
        rdropWhile_append_cons (h y rfl)
      rw [List.nil_append] at hsplit
      rw [hsplit]
      rfl

theorem head_trim : (trim p l).head? = (l.dropWhile p).head? :=
  head_rdropWhile fun _ h => head_dropWhile h

theorem trimmed_trim : Trimmed p (trim p l) where
  head := by
    intro x h
    rw [head_trim] at h
    exact head_dropWhile h
  last := by
    intro x h
    have hne : trim p l ≠ [] := by
      rintro hnil
      rw [hnil] at h
      cases h
    rw [List.getLast?_eq_getLast_of_ne_nil hne] at h
    obtain rfl := Option.some.inj h
    exact Bool.of_not_eq_true (List.rdropWhile_last_not p _ hne)

theorem trim_concat (hx : p x = true) : trim p (l ++ [x]) = trim p l := by
  by_cases hall : ∀ y ∈ l, p y = true
  · have hnil : ∀ l : List α, (∀ y ∈ l, p y = true) → trim p l = [] := by
      intro l hl
      rw [trim, List.dropWhile_eq_nil_iff.mpr hl, List.rdropWhile_nil]
    rw [hnil l hall, hnil]
    intro y hy
    rcases List.mem_append.mp hy with hy | hy
    · exact hall y hy
    · rwa [List.mem_singleton.mp hy]
  · push Not at hall
    obtain ⟨y, hy, hpy⟩ := hall
    obtain ⟨l₁, l₂, rfl⟩ := List.append_of_mem hy
    have hpy : p y = false := Bool.of_not_eq_true hpy
    rw [List.append_assoc, List.cons_append, trim_append_cons hpy, trim_append_cons hpy,
      List.rdropWhile_concat_pos p _ x hx]

/-- What trimming takes away at the two ends. -/
theorem exists_trim_append (p : α → Bool) (l : List α) :
    ∃ w v, l = w ++ (trim p l ++ v) ∧ (∀ x ∈ w, p x = true) ∧ (∀ x ∈ v, p x = true) ∧
      (trim p l = [] → v = []) := by
  by_cases hall : ∀ x ∈ l, p x = true
  · have hnil : trim p l = [] := by
      rw [trim, List.dropWhile_eq_nil_iff.mpr hall, List.rdropWhile_nil]
    exact ⟨l, [], by simp [hnil], hall, by simp, fun _ => rfl⟩
  · have hne : trim p l ≠ [] := by
      rw [trim, Ne, List.rdropWhile_eq_nil_iff]
      intro hdrop
      refine hall fun x hx => ?_
      rw [← List.takeWhile_append_dropWhile (p := p) (l := l)] at hx
      rcases List.mem_append.mp hx with hx | hx
      · exact List.mem_takeWhile_imp hx
      · exact hdrop x hx
    refine ⟨l.takeWhile p, (l.dropWhile p).rtakeWhile p, ?_,
      fun x hx => List.mem_takeWhile_imp hx, fun x hx => List.mem_rtakeWhile_imp hx,
      fun hnil => absurd hnil hne⟩
    rw [trim, List.rdropWhile_append_rtakeWhile, List.takeWhile_append_dropWhile]

theorem trim_cons (hx : p x = true) : trim p (x :: l) = trim p l := by
  rw [trim, List.dropWhile_cons_of_pos hx, trim]

theorem trim_dropWhile : trim p (l.dropWhile p) = trim p l := by
  rw [trim, List.dropWhile_idempotent, trim]

theorem trim_rdropWhile : trim p (l.rdropWhile p) = trim p l := by
  induction l using List.reverseRecOn with
  | nil => rfl
  | append_singleton l x ih =>
      by_cases hx : p x = true
      · rw [List.rdropWhile_concat_pos p _ x hx, ih, trim_concat hx]
      · rw [List.rdropWhile_concat_neg p _ x hx]

end Collection
