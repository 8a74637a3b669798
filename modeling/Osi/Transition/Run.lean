import Mathlib.Logic.Function.Basic
import Mathlib.Data.List.Basic

/-!
# Runs of a labelled transition system

A labelled transition system is only its step relation `step s l s'`. A `Run`
is a finite sequence of steps with the list of its labels, built by adding the
newest step at the end, so that an invariant is proved by looking at one last
step. `Guarded` restricts a step relation to the steps that meet a condition on
the state before the step and on the label: a run of the restricted relation is
a run all of whose steps meet the condition.

Executable systems give their steps as a partial function. `exec` folds it over
a list of labels, and `Run.of_exec` reads a successful execution as a run.
-/

namespace Transition

inductive Run {σ Λ : Type*} (step : σ → Λ → σ → Prop) : σ → List Λ → σ → Prop
  | nil (s : σ) : Run step s [] s
  | snoc {s s' s'' : σ} {ls : List Λ} {l : Λ} :
      Run step s ls s' → step s' l s'' → Run step s (ls ++ [l]) s''

def Reachable {σ Λ : Type*} (step : σ → Λ → σ → Prop) (s s' : σ) : Prop :=
  ∃ ls, Run step s ls s'

def Guarded {σ Λ : Type*} (guard : σ → Λ → Prop) (step : σ → Λ → σ → Prop) :
    σ → Λ → σ → Prop :=
  fun s l s' => guard s l ∧ step s l s'

namespace Run

variable {σ Λ : Type*} {step : σ → Λ → σ → Prop}

/-- The induction rule for safety: what holds at the start and is kept by every
step holds at the end of every run. -/
theorem invariant {I : σ → Prop}
    (hstep : ∀ s l s', I s → step s l s' → I s')
    {s s' : σ} {ls : List Λ} (h : Run step s ls s') (hs : I s) : I s' := by
  induction h with
  | nil => exact hs
  | snoc _ hlast ih => exact hstep _ _ _ ih hlast

theorem mono {step' : σ → Λ → σ → Prop}
    (hsub : ∀ s l s', step s l s' → step' s l s')
    {s s' : σ} {ls : List Λ} (h : Run step s ls s') : Run step' s ls s' := by
  induction h with
  | nil => exact .nil s
  | snoc _ hlast ih => exact ih.snoc (hsub _ _ _ hlast)

/-- A run under one condition is a run under another one that follows from it in
the states with an invariant. -/
theorem guarded_of_invariant {I : σ → Prop} {guard guard' : σ → Λ → Prop}
    (hstep : ∀ s l s', I s → guard s l → step s l s' → I s')
    (hguard : ∀ s l, I s → guard s l → guard' s l)
    {s s' : σ} {ls : List Λ} (h : Run (Guarded guard step) s ls s') (hs : I s) :
    Run (Guarded guard' step) s ls s' := by
  have hboth : I s' ∧ Run (Guarded guard' step) s ls s' := by
    induction h with
    | nil => exact ⟨hs, .nil s⟩
    | snoc _ hlast ih =>
        obtain ⟨hinv, hrun⟩ := ih
        exact ⟨hstep _ _ _ hinv hlast.1 hlast.2,
          hrun.snoc ⟨hguard _ _ hinv hlast.1, hlast.2⟩⟩
  exact hboth.2

/-- A property that, in the states with an invariant, holds after a step exactly if it
held before and the step meets a condition: it holds at the end of a run exactly if all
the steps of the run meet the condition. -/
theorem guarded_iff {I P : σ → Prop} {guard : σ → Λ → Prop}
    (hinv : ∀ s l s', I s → step s l s' → I s')
    (hstep : ∀ s l s', I s → step s l s' → (P s' ↔ P s ∧ guard s l))
    {s s' : σ} {ls : List Λ} (h : Run step s ls s') (hI : I s) (hP : P s) :
    P s' ↔ Run (Guarded guard step) s ls s' := by
  constructor
  · intro hlast
    have hboth : I s' ∧ Run (Guarded guard step) s ls s' := by
      induction h with
      | nil => exact ⟨hI, .nil s⟩
      | @snoc s₁ s₂ ls l hrun hnext ih =>
          have hI₁ : I s₁ := hrun.invariant hinv hI
          obtain ⟨hP₁, hguard⟩ := (hstep s₁ l s₂ hI₁ hnext).mp hlast
          obtain ⟨-, hguarded⟩ := ih hP₁
          exact ⟨hinv s₁ l s₂ hI₁ hnext, hguarded.snoc ⟨hguard, hnext⟩⟩
    exact hboth.2
  · intro hguarded
    refine (hguarded.invariant (I := fun s => I s ∧ P s) ?_ ⟨hI, hP⟩).2
    rintro s l s' ⟨hI, hP⟩ ⟨hguard, hnext⟩
    exact ⟨hinv s l s' hI hnext, (hstep s l s' hI hnext).mpr ⟨hP, hguard⟩⟩

end Run

namespace Reachable

variable {σ Λ : Type*} {step : σ → Λ → σ → Prop}

theorem refl (s : σ) : Reachable step s s := ⟨[], .nil s⟩

theorem snoc {s s' s'' : σ} {l : Λ} (h : Reachable step s s')
    (hlast : step s' l s'') : Reachable step s s'' := by
  obtain ⟨ls, hrun⟩ := h
  exact ⟨ls ++ [l], hrun.snoc hlast⟩

theorem trans {s s' s'' : σ} (h : Reachable step s s') (h' : Reachable step s' s'') :
    Reachable step s s'' := by
  obtain ⟨ls, hrun⟩ := h'
  induction hrun with
  | nil => exact h
  | snoc _ hlast ih => exact ih.snoc hlast

theorem invariant {I : σ → Prop}
    (hstep : ∀ s l s', I s → step s l s' → I s')
    {s s' : σ} (h : Reachable step s s') (hs : I s) : I s' := by
  obtain ⟨ls, hrun⟩ := h
  exact hrun.invariant hstep hs

/-- The induction rule that may use what is already known about reachable
states. -/
theorem induct {I : σ → Prop} {s₀ : σ} (hs₀ : I s₀)
    (hstep : ∀ s l s', Reachable step s₀ s → I s → step s l s' → I s')
    {s : σ} (h : Reachable step s₀ s) : I s := by
  have hboth : Reachable step s₀ s ∧ I s := by
    refine h.invariant (I := fun s => Reachable step s₀ s ∧ I s) ?_ ⟨refl s₀, hs₀⟩
    rintro s l s' ⟨hreach, hs⟩ hlast
    exact ⟨hreach.snoc hlast, hstep s l s' hreach hs hlast⟩
  exact hboth.2

end Reachable

def Next {σ Λ ε : Type*} (next : σ → Λ → Except ε σ) : σ → Λ → σ → Prop :=
  fun s l s' => next s l = .ok s'

/-- The partial execution of a list of labels by a partial step function; it
stops with `none` at the first label that is not enabled or not permitted. -/
def exec {σ Λ ε : Type*} (permitted : σ → Λ → Bool) (next : σ → Λ → Except ε σ) :
    σ → List Λ → Option σ
  | s, [] => some s
  | s, l :: ls =>
      match permitted s l, next s l with
      | true, .ok s' => exec permitted next s' ls
      | _, _ => none

namespace Run

variable {σ Λ : Type*} {step : σ → Λ → σ → Prop}

theorem cons {s s' s'' : σ} {l : Λ} {ls : List Λ} (hfirst : step s l s')
    (h : Run step s' ls s'') : Run step s (l :: ls) s'' := by
  induction h with
  | nil => exact (Run.nil s).snoc hfirst
  | snoc _ hlast ih => exact ih.snoc hlast

theorem append {s s' s'' : σ} {ls ls' : List Λ} (h : Run step s ls s')
    (h' : Run step s' ls' s'') : Run step s (ls ++ ls') s'' := by
  induction h' with
  | nil => rwa [List.append_nil]
  | @snoc _ _ ls' l _ hlast ih =>
      rw [← List.append_assoc]
      exact ih.snoc hlast

/-- An execution that gets to the end of its labels is a run. -/
theorem of_exec {ε : Type*} {guard : σ → Λ → Prop} [∀ s l, Decidable (guard s l)]
    {next : σ → Λ → Except ε σ} {s s' : σ} {ls : List Λ}
    (h : exec (fun s l => decide (guard s l)) next s ls = some s') :
    Run (Guarded guard (Next next)) s ls s' := by
  induction ls generalizing s with
  | nil =>
      obtain rfl : s = s' := by simpa [exec] using h
      exact .nil s
  | cons l ls ih =>
      rw [exec] at h
      split at h
      · rename_i s₁ hguard hnext
        exact .cons ⟨of_decide_eq_true hguard, hnext⟩ (ih h)
      · exact absurd h (by simp)

theorem of_exec_true {ε : Type*} {next : σ → Λ → Except ε σ} {s s' : σ} {ls : List Λ}
    (h : exec (fun _ _ => true) next s ls = some s') : Run (Next next) s ls s' := by
  have hrun : Run (Guarded (fun _ _ => True) (Next next)) s ls s' :=
    Run.of_exec (by simpa using h)
  exact hrun.mono fun _ _ _ hstep => hstep.2

end Run

namespace Reachable

variable {σ Λ ε : Type*} {next : σ → Λ → Except ε σ} {s s' : σ}

theorem of_exec {guard : σ → Λ → Prop} [∀ s l, Decidable (guard s l)]
    {ls : List Λ}
    (h : exec (fun s l => decide (guard s l)) next s ls = some s') :
    Reachable (Guarded guard (Next next)) s s' :=
  ⟨ls, Run.of_exec h⟩

theorem of_exec_true {ls : List Λ} (h : exec (fun _ _ => true) next s ls = some s') :
    Reachable (Next next) s s' :=
  ⟨ls, Run.of_exec_true h⟩

end Reachable

end Transition
