import Mathlib.Data.List.Basic

/-!
# Sequences of calls with replies

A sequential component is a function `step s l` that gives, for a state and a
call, the state after the call and the reply. `calls step s ls` runs a sequence
of calls and collects the replies. What one call keeps, every sequence keeps
(`calls_invariant`). Two components whose calls agree through a relation between
their states give the same replies to every sequence (`calls_simulation`); if
some calls tell them apart, the sequences with equal replies are those without
such a call (`calls_replies_eq_iff`). A property that exactly the calls under a
condition keep holds all along the sequences whose calls meet it
(`calls_along_iff`).
-/

namespace Transition

variable {σ τ Λ ρ : Type*}

/-- The state after a sequence of calls, and the replies in their order. -/
def calls (step : σ → Λ → σ × ρ) : σ → List Λ → σ × List ρ
  | s, [] => (s, [])
  | s, l :: ls =>
      let (s', r) := step s l
      let (s'', rs) := calls step s' ls
      (s'', r :: rs)

@[simp] theorem calls_nil (step : σ → Λ → σ × ρ) (s : σ) :
    calls step s [] = (s, []) := rfl

theorem calls_cons (step : σ → Λ → σ × ρ) (s : σ) (l : Λ) (ls : List Λ) :
    calls step s (l :: ls) =
      ((calls step (step s l).1 ls).1,
        (step s l).2 :: (calls step (step s l).1 ls).2) := rfl

theorem calls_fst (step : σ → Λ → σ × ρ) (s : σ) (ls : List Λ) :
    (calls step s ls).1 = ls.foldl (fun s l => (step s l).1) s := by
  induction ls generalizing s with
  | nil => rfl
  | cons l ls ih => exact ih (step s l).1

/-- The last call of a sequence is made in the state the others lead to. -/
theorem calls_concat (step : σ → Λ → σ × ρ) (s : σ) (ls : List Λ) (l : Λ) :
    calls step s (ls ++ [l]) =
      ((step (calls step s ls).1 l).1,
        (calls step s ls).2 ++ [(step (calls step s ls).1 l).2]) := by
  induction ls generalizing s with
  | nil => rfl
  | cons m ls ih =>
      rw [List.cons_append, calls_cons, ih, calls_cons]
      rfl

/-- What holds at the start and is kept by every call holds after every
sequence of calls. -/
theorem calls_invariant {step : σ → Λ → σ × ρ} {I : σ → Prop}
    (hstep : ∀ s l, I s → I (step s l).1) {s : σ} (hs : I s) (ls : List Λ) :
    I (calls step s ls).1 := by
  induction ls generalizing s with
  | nil => exact hs
  | cons l ls ih =>
      rw [calls_cons]
      exact ih (hstep s l hs)

/-- A property that, in the states with an invariant, is kept exactly by the calls
that meet a condition: it holds after every initial part of a sequence exactly if
every call of the sequence meets the condition. -/
theorem calls_along_iff {step : σ → Λ → σ × ρ} {I P : σ → Prop}
    {meets : σ → Λ → Prop} (hinv : ∀ s l, I s → I (step s l).1)
    (hstep : ∀ s l, I s → P s → (P (step s l).1 ↔ meets s l))
    {s : σ} (hI : I s) (hP : P s) (ls : List Λ) :
    (∀ pre post, ls = pre ++ post → P (calls step s pre).1) ↔
      ∀ pre l post, ls = pre ++ l :: post → meets (calls step s pre).1 l := by
  induction ls generalizing s with
  | nil =>
      constructor
      · intro _ pre l post hsplit
        exact absurd hsplit (by simp)
      · intro _ pre post hsplit
        obtain ⟨rfl, rfl⟩ := List.nil_eq_append_iff.mp hsplit
        exact hP
  | cons l ls ih =>
      constructor
      · intro hall
        have hnext : P (step s l).1 := hall [l] ls rfl
        have hrest := (ih (hinv s l hI) hnext).mp fun pre post hsplit =>
          hall (l :: pre) post (by rw [hsplit, List.cons_append])
        intro pre l' post hsplit
        cases pre with
        | nil =>
            obtain ⟨rfl, rfl⟩ := List.cons_eq_cons.mp hsplit
            exact (hstep s l hI hP).mp hnext
        | cons l₀ pre =>
            obtain ⟨rfl, htail⟩ := List.cons_eq_cons.mp hsplit
            exact hrest pre l' post htail
      · intro hall
        have hnext : P (step s l).1 := (hstep s l hI hP).mpr (hall [] l ls rfl)
        have hrest := (ih (hinv s l hI) hnext).mpr fun pre l' post hsplit =>
          hall (l :: pre) l' post (by rw [hsplit, List.cons_append])
        intro pre post hsplit
        cases pre with
        | nil => exact hP
        | cons l₀ pre =>
            obtain ⟨rfl, htail⟩ := List.cons_eq_cons.mp hsplit
            exact hrest pre post htail

/-- Two components whose states stay related, and whose replies to a call differ
exactly when the call is revealing, reply alike to the sequences without a
revealing call. -/
theorem calls_replies_eq_iff {step : σ → Λ → σ × ρ} {step' : τ → Λ → τ × ρ}
    {R : σ → τ → Prop} {reveals : τ → Λ → Prop}
    (hstep : ∀ s t l, R s t → R (step s l).1 (step' t l).1 ∧
      ((step s l).2 = (step' t l).2 ↔ ¬ reveals t l))
    {s : σ} {t : τ} (h : R s t) (ls : List Λ) :
    (calls step s ls).2 = (calls step' t ls).2 ↔
      ∀ pre l post, ls = pre ++ l :: post → ¬ reveals (calls step' t pre).1 l := by
  induction ls generalizing s t with
  | nil => simp
  | cons l ls ih =>
      obtain ⟨hnext, hreply⟩ := hstep s t l h
      rw [calls_cons, calls_cons, List.cons_eq_cons, hreply, ih hnext]
      constructor
      · rintro ⟨hfirst, hrest⟩ pre l' post hsplit
        cases pre with
        | nil =>
            obtain ⟨rfl, rfl⟩ := List.cons_eq_cons.mp hsplit
            exact hfirst
        | cons l₀ pre =>
            obtain ⟨rfl, htail⟩ := List.cons_eq_cons.mp hsplit
            exact hrest pre l' post htail
      · intro hall
        refine ⟨hall [] l ls rfl, ?_⟩
        intro pre l' post hsplit
        exact hall (l :: pre) l' post (by rw [hsplit, List.cons_append])

/-- A relation that every call keeps, with equal replies, is kept by every
sequence of calls, with equal replies. -/
theorem calls_simulation {step : σ → Λ → σ × ρ} {step' : τ → Λ → τ × ρ}
    {R : σ → τ → Prop}
    (hstep : ∀ s t l, R s t →
      R (step s l).1 (step' t l).1 ∧ (step s l).2 = (step' t l).2)
    {s : σ} {t : τ} (h : R s t) (ls : List Λ) :
    R (calls step s ls).1 (calls step' t ls).1 ∧
      (calls step s ls).2 = (calls step' t ls).2 := by
  induction ls generalizing s t with
  | nil => exact ⟨h, rfl⟩
  | cons l ls ih =>
      obtain ⟨hnext, hreply⟩ := hstep s t l h
      obtain ⟨hlast, hreplies⟩ := ih hnext
      rw [calls_cons, calls_cons]
      exact ⟨hlast, by rw [hreply, hreplies]⟩

end Transition
