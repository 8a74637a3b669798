import Osi.Future.Handoff.Create

/-!
# The hand-over in every run

What `future_await` returns is the value that `future_ready` was given, and each access is
to memory that is allocated.
-/

namespace Osi

namespace Future

open Transition
open Memory (Addr)

section Staged

variable {T : Type*} {stage : ℕ → Stage T} {s s' : State T} {t : T} {n : ℕ} {v : Pc} {g : Stage T}

namespace Staged

variable [DecidableEq T]

omit [DecidableEq T] in
theorem returned (h : Staged stage s) {value : Addr} (hawaited : (n, value) ∈ s.awaited) :
    (n, value) ∈ s.readied ∨ (n, value) ∈ s.immediates := by
  have hrecord := h.recorded n
  have hwf := h.wf n
  have hreturned := (hrecord.awaited value).mp hawaited
  rw [hrecord.readied value, hrecord.immediates value]
  cases hstage : stage n with
  | shared w r =>
      rw [hstage] at hwf hreturned
      cases r with
      | done x =>
          cases hreturned
          rw [hwf.2 value rfl]
          exact .inl rfl
      | _ => cases hreturned
  | immediate x r =>
      rw [hstage] at hwf hreturned
      cases r with
      | done y =>
          cases hreturned
          rw [hwf.2 value rfl]
          exact .inr rfl
      | _ => cases hreturned
  | _ =>
      rw [hstage] at hreturned
      cases hreturned

/-- A call in progress goes on, or waits for the end of `future_ready`. -/
theorem advance (h : Staged stage s) (t : T) :
    (∃ s' stage', s.advance t = .ok s' ∧ Staged stage' s') ∨
      (∃ r, s.pc t = .idle r) ∨
      s.advance t = .error .blocked ∧ ∃ n k w r, s.pc t = .await n k ∧
        stage n = .shared w r ∧ w.posted = 0 := by
  cases hpc : s.pc t with
  | idle r => exact .inr (.inl ⟨r, rfl⟩)
  | create n k => exact .inl (h.advanceCreate hpc)
  | ready n value k => exact .inl (h.advanceReady hpc)
  | await n k =>
      refine (h.advanceAwait hpc).imp_right ?_
      rintro ⟨hblocked, w, r, hstage, hw⟩
      exact .inr ⟨hblocked, n, k, w, r, rfl, hstage, hw⟩
  | free n value k => exact .inl (h.advanceFree hpc)

theorem step (h : Staged stage s) {l : Label T} (hcontract : State.Contract s l)
    (hs' : s.step l = .ok s') : ∃ stage', Staged stage' s' := by
  cases l with
  | call t op =>
      simp only [State.step] at hs'
      split at hs'
      · rename_i r hpc
        cases hs'
        cases op with
        | new => exact h.calloc hpc rfl
        | newImmediate value => exact h.calloc hpc rfl
        | ready n value => exact h.enterReady hpc hcontract
        | await n => exact h.enterAwait hpc hcontract
      · cases hs'
  | run t =>
      have hs₁ : s.advance t = .ok s' := hs'
      rcases h.advance t with ⟨s₂, stage', hs₂, hstaged⟩ | ⟨r, hpc⟩ | ⟨hblocked, -⟩
      · rw [hs₁] at hs₂
        cases hs₂
        exact ⟨stage', hstaged⟩
      · simp only [State.advance, hpc] at hs₁
        cases hs₁
      · rw [hs₁] at hblocked
        cases hblocked
  | fail t => exact h.fail hs'

end Staged

theorem staged_of_reachable {s : State T} [DecidableEq T]
    (h : Reachable (Guarded State.Contract (Next State.step)) State.init s) :
    ∃ stage, Staged stage s := by
  refine h.invariant (I := fun s => ∃ stage, Staged stage s) ?_ ⟨_, staged_init⟩
  rintro s l s' ⟨stage, hstaged⟩ ⟨hcontract, hstep⟩
  exact hstaged.step hcontract hstep

end Staged

/-- In every run that keeps to the contract of `future.h`, whatever the order of the
steps: no call touches a future, a semaphore or a descriptor that was released, releases
one twice or fails at an `assert`; a `future_await` returns what the `future_ready` of
its own future was given, or the value of the immediate future; and a future that was
returned is released, with its semaphore and its descriptor, exactly if its
`future_await` has returned. -/
theorem future_handoff {T : Type*} [DecidableEq T] (s : State T)
    (h : Reachable (Guarded State.Contract (Next State.step)) State.init s) :
    (∀ t, s.step (.run t) ≠ .error .released ∧ s.step (.run t) ≠ .error .closed ∧
      s.step (.run t) ≠ .error .assertion) ∧
    (∀ n value, (n, value) ∈ s.awaited →
      (n, value) ∈ s.readied ∨ (n, value) ∈ s.immediates) ∧
    (∀ n o, n ∈ s.futures ∨ n ∈ s.immediates.map Prod.fst → s.objects n = some o →
      (o.allocated = false ↔ ∃ value, (n, value) ∈ s.awaited) ∧
      (o.allocated = false → o.semaphoreAllocated = false ∧ o.fd = none)) := by
  obtain ⟨stage, hstaged⟩ := staged_of_reachable h
  refine ⟨?_, ?_, ?_⟩
  · intro t
    have hrun : s.step (.run t) = s.advance t := rfl
    rcases hstaged.advance t with ⟨s', -, hs', -⟩ | ⟨r, hpc⟩ | ⟨hblocked, -⟩
    · simp [hrun, hs']
    · simp [hrun, State.advance, hpc]
    · simp [hrun, hblocked]
  · intro n value hawaited
    exact hstaged.returned hawaited
  · intro n o hn ho
    have hrecord := hstaged.recorded n
    have hawaited : (∃ value, (n, value) ∈ s.awaited) ↔
        ∃ value, (stage n).reader = .done value := by
      simp only [hrecord.awaited, (stage n).record_awaits.2]
      cases (stage n).reader <;> simp [Reader.returned]
    rw [hawaited]
    rw [hstaged.objects n] at ho
    cases hstage : stage n with
    | shared w r =>
        rw [hstage] at ho
        cases ho
        cases r <;> simp [Stage.reader, Reader.allocated, Reader.semaphoreAllocated,
          Reader.isOpen]
    | immediate x r =>
        rw [hstage] at ho
        cases ho
        cases r <;> simp [Stage.reader, Reader.allocated]
    | _ =>
        rw [hstage] at hrecord
        rcases hn with hfuture | himmediate
        · cases hrecord.futures.mp hfuture
        · obtain ⟨⟨m, x⟩, hx, rfl⟩ := List.mem_map.mp himmediate
          cases (hrecord.immediates x).mp hx

def readyWhileAwaited : List (Label Bool) :=
  [.call true .new, .run true, .fail true, .run true, .call true .new, .run true, .run true,
    .run true, .call false (.await 1), .run false, .run false, .run false,
    .call true (.ready 1 7), .run true, .run true, .run true, .run true, .run true,
    .run true, .run false, .run false, .run false, .run false, .run false, .run false]

theorem future_handoff_readyWhileAwaited :
    ∃ s : State Bool, s.pc false = .idle (.value 7) ∧ (1, 7) ∈ s.readied ∧
      ∃ o, s.objects 1 = some o ∧ o.semaphoreAllocated = false ∧ o.fd = none := by
  have hend : ((exec (fun s l => decide (State.Contract s l)) State.step State.init
      readyWhileAwaited).any fun s => decide (s.pc false = .idle (.value 7) ∧
        (1, 7) ∈ s.awaited ∧ s.immediates = [] ∧ s.futures = [1] ∧
        (s.objects 1).isSome = true)) = true := by
    decide +kernel
  obtain ⟨s, hs, hend⟩ := (Option.any_eq_true _ _).mp hend
  obtain ⟨hpc, hawaited, himmediates, hfutures, hsome⟩ := of_decide_eq_true hend
  obtain ⟨-, hreturned, hreleased⟩ := future_handoff s (Reachable.of_exec hs)
  obtain ⟨o, ho⟩ := Option.isSome_iff_exists.mp hsome
  obtain ⟨hiff, hall⟩ := hreleased 1 o (.inl (by rw [hfutures]; simp)) ho
  refine ⟨s, hpc, (hreturned 1 7 hawaited).resolve_right ?_, o, ho, ?_⟩
  · rw [himmediates]
    simp
  · exact hall (hiff.mpr ⟨7, hawaited⟩)

end Future

end Osi
