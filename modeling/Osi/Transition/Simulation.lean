import Osi.Transition.Run

/-!
# Forward simulation with stuttering

A concrete system and an abstract one with the same labels. An abstraction function
sends every concrete state with an invariant to an abstract one, and a concrete step
is the abstract step with the same label or is not seen at all. Then every concrete
run is an abstract run with some labels left out, none of them visible, and what is
known of the abstract runs carries over.
-/

namespace Transition

variable {σ τ Λ : Type*} {step : σ → Λ → σ → Prop} {step' : τ → Λ → τ → Prop}

/-- Every step from a state with the invariant keeps it, and is the abstract step with
its label or an invisible step that the abstraction does not see. -/
def Stutters (I : σ → Prop) (abs : σ → τ) (visible : Λ → Bool)
    (step : σ → Λ → σ → Prop) (step' : τ → Λ → τ → Prop) : Prop :=
  ∀ s l s', I s → step s l s' →
    I s' ∧ (visible l = false ∧ abs s' = abs s ∨ step' (abs s) l (abs s'))

/-- The run lemma: the abstract run has the same visible labels in the same order. -/
theorem Stutters.run {I : σ → Prop} {abs : σ → τ} {visible : Λ → Bool}
    (h : Stutters I abs visible step step') {s s' : σ} {ls : List Λ}
    (hrun : Run step s ls s') (hs : I s) :
    I s' ∧ ∃ ls', ls'.Sublist ls ∧ ls'.filter visible = ls.filter visible ∧
      Run step' (abs s) ls' (abs s') := by
  induction hrun with
  | nil => exact ⟨hs, [], .slnil, rfl, .nil _⟩
  | @snoc s₁ s₂ ls l _ hlast ih =>
      obtain ⟨hs₁, ls', hsub, hvisible, hrun'⟩ := ih
      obtain ⟨hs₂, hcases⟩ := h s₁ l s₂ hs₁ hlast
      refine ⟨hs₂, ?_⟩
      rcases hcases with ⟨hl, hsame⟩ | hstep
      · refine ⟨ls', hsub.trans (List.sublist_append_left ls [l]), ?_, ?_⟩
        · rw [List.filter_append, hvisible, List.filter_singleton, hl]
          simp
        · rw [hsame]
          exact hrun'
      · refine ⟨ls' ++ [l], hsub.append_right [l], ?_, hrun'.snoc hstep⟩
        rw [List.filter_append, List.filter_append, hvisible]

end Transition
