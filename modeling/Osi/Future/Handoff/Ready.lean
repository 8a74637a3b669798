import Osi.Future.Handoff.Stages

/-!
# The steps of `future_ready`

A step moves one future from one stage to the next, and leaves the others where they are;
in the call of `future_ready` only the writer of the stage moves.
-/

namespace Osi

namespace Future

open Transition
open Memory (Addr)

section Staged

variable {T : Type*} {stage : ℕ → Stage T} {s s' : State T} {t : T} {n : ℕ} {v : Pc} {g : Stage T}

namespace Staged

variable [DecidableEq T]

/-- A step of the thread `t` that takes one future to the stage `g`. -/
theorem move (h : Staged stage s) (hown : ∀ m, (s.pc t).future = some m → m = n)
    (hobjects : ∀ m, s'.objects m = if m = n then g.object else s.objects m)
    (hpc : s'.pc = Function.update s.pc t v)
    (hclaims : ∀ u w, g.Claims n u w ↔ (u = t ∧ w = v ∧ v.future = some n) ∨
      (u ≠ t ∧ (stage n).Claims n u w))
    (hv : v.future = none → ∃ r, v = .idle r) (hv' : ∀ m, v.future = some m → m = n)
    (hwf : g.Wf) (hnext : s.next ≤ s'.next) (hn : n < s'.next)
    (hrecorded : ∀ m, Recorded s' m (if m = n then g.record else (stage m).record)) :
    Staged (Function.update stage n g) s' := by
  refine ⟨?_, ?_, ?_, ?_, ?_, ?_⟩
  · intro m
    rw [hobjects m]
    by_cases hm : m = n
    · subst hm
      simp
    · simp [hm, h.objects m]
  · intro m u w hw
    rw [hpc]
    by_cases hm : m = n
    · subst hm
      rw [Function.update_self] at hw
      rcases (hclaims u w).mp hw with ⟨rfl, rfl, -⟩ | ⟨hu, hold⟩
      · exact Function.update_self ..
      · rw [Function.update_of_ne hu]
        exact h.claims m u w hold
    · rw [Function.update_of_ne hm] at hw
      have hu : u ≠ t := by
        rintro rfl
        exact h.not_claims (fun hfuture => hm (hown m hfuture)) w hw
      rw [Function.update_of_ne hu]
      exact h.claims m u w hw
  · intro u
    rw [hpc]
    by_cases hu : u = t
    · subst hu
      rw [Function.update_self]
      cases hfuture : v.future with
      | none => exact .inl (hv hfuture)
      | some m =>
          obtain rfl := hv' m hfuture
          refine .inr ⟨m, ?_⟩
          rw [Function.update_self]
          exact (hclaims u v).mpr (.inl ⟨rfl, rfl, hfuture⟩)
    · rw [Function.update_of_ne hu]
      refine (h.busy u).imp_right ?_
      rintro ⟨m, hm⟩
      refine ⟨m, ?_⟩
      by_cases hmn : m = n
      · subst hmn
        rw [Function.update_self]
        exact (hclaims u _).mpr (.inr ⟨hu, hm⟩)
      · rw [Function.update_of_ne hmn]
        exact hm
  · intro m
    by_cases hm : m = n
    · subst hm
      rw [Function.update_self]
      exact hwf
    · rw [Function.update_of_ne hm]
      exact h.wf m
  · intro m hm
    have hne : m ≠ n := by omega
    rw [Function.update_of_ne hne]
    exact h.fresh m (by omega)
  · intro m
    by_cases hm : m = n
    · subst hm
      simpa using hrecorded m
    · simpa [hm] using hrecorded m

omit [DecidableEq T] in
/-- The records are the same after a step that adds nothing to the history. -/
theorem same_records (h : Staged stage s) (hg : g.record = (stage n).record)
    (hfutures : s'.futures = s.futures) (himmediates : s'.immediates = s.immediates)
    (hreadied : s'.readied = s.readied) (hawaits : s'.awaits = s.awaits)
    (hawaited : s'.awaited = s.awaited) (m : ℕ) :
    Recorded s' m (if m = n then g.record else (stage m).record) := by
  have hm : (if m = n then g.record else (stage m).record) = (stage m).record := by
    split_ifs with hmn
    · rw [hmn, hg]
    · rfl
  rw [hm]
  have hold := h.recorded m
  exact ⟨hfutures ▸ hold.futures, himmediates ▸ hold.immediates, hreadied ▸ hold.readied,
    hawaits ▸ hold.awaits, hawaited ▸ hold.awaited⟩

omit [DecidableEq T] in
theorem new_records (h : Staged stage s) (hself : Recorded s' n g.record)
    (hfutures : ∀ m, m ≠ n → (m ∈ s'.futures ↔ m ∈ s.futures))
    (himmediates : ∀ m value, m ≠ n →
      ((m, value) ∈ s'.immediates ↔ (m, value) ∈ s.immediates))
    (hreadied : ∀ m value, m ≠ n → ((m, value) ∈ s'.readied ↔ (m, value) ∈ s.readied))
    (hawaits : ∀ m, m ≠ n → (m ∈ s'.awaits ↔ m ∈ s.awaits))
    (hawaited : ∀ m value, m ≠ n → ((m, value) ∈ s'.awaited ↔ (m, value) ∈ s.awaited))
    (m : ℕ) : Recorded s' m (if m = n then g.record else (stage m).record) := by
  split_ifs with hm
  · rw [hm]
    exact hself
  · have hold := h.recorded m
    exact ⟨(hfutures m hm).trans hold.futures, 
      fun value => (himmediates m value hm).trans (hold.immediates value),
      fun value => (hreadied m value hm).trans (hold.readied value),
      (hawaits m hm).trans hold.awaits,
      fun value => (hawaited m value hm).trans (hold.awaited value)⟩

omit [DecidableEq T] in
theorem lt_next (h : Staged stage s) (hn : stage n ≠ .absent) : n < s.next := by
  by_contra hge
  exact hn (h.fresh n (by omega))

omit [DecidableEq T] in
theorem writer (h : Staged stage s) {value : Addr} {k : ReadyPoint}
    (hpc : s.pc t = .ready n value k) :
    ∃ r, stage n = .shared (.busy t value k) r ∧ r.taken = 0 := by
  have hclaims := h.claims_self (t := t) (n := n) (by rw [hpc]; rfl)
  rw [hpc] at hclaims
  cases hstage : stage n with
  | shared w r =>
      rw [hstage] at hclaims
      rcases hclaims with hw | hr
      · cases w with
        | busy u x k' =>
            obtain ⟨rfl, hpcs⟩ := hw
            cases hpcs
            have hwf := h.wf n
            rw [hstage] at hwf
            exact ⟨r, rfl, Nat.le_zero.mp hwf.1⟩
        | _ => cases hw
      · cases r <;> first | cases hr; done | (obtain ⟨-, hr⟩ := hr; cases hr)
  | creating u k' =>
      rw [hstage] at hclaims
      obtain ⟨-, hpcs⟩ := hclaims
      cases hpcs
  | immediate x r =>
      rw [hstage] at hclaims
      cases r <;> first | cases hclaims; done | (obtain ⟨-, hr⟩ := hclaims; cases hr)
  | absent | failed =>
      rw [hstage] at hclaims
      cases hclaims

theorem moveWriter (h : Staged stage s) {value : Addr} {k : ReadyPoint} {r : Reader T}
    {w : Writer T} (hpc : s.pc t = .ready n value k)
    (hstage : stage n = .shared (.busy t value k) r) (hr : r.taken = 0)
    (hw : (∃ k', w = .busy t value k' ∧ v = .ready n value k') ∨
      w = .done value ∧ v = .idle .done)
    (hobjects : ∀ m, s'.objects m = if m = n then (Stage.shared w r).object
      else s.objects m)
    (hs' : s' = { s with objects := s'.objects, pc := Function.update s.pc t v }) :
    Staged (Function.update stage n (.shared w r)) s' := by
  have hlt := h.lt_next (n := n) (by rw [hstage]; simp)
  have hreader : ∀ u x, r.Claims n u x → u ≠ t := by
    rintro u x hx rfl
    have hpc' := h.claims n u x (by rw [hstage]; exact .inr hx)
    rw [hpc] at hpc'
    subst hpc'
    cases r <;> first | cases hx; done | (obtain ⟨-, hx⟩ := hx; cases hx)
  have hvalue : r.value = none := by
    cases r <;> first | rfl | cases hr
  refine h.move (t := t) (v := v) ?_ hobjects (by rw [hs']) ?_ ?_ ?_ ?_ (by rw [hs'])
    (by rw [hs']; exact hlt) ?_
  · intro m hm
    rw [hpc] at hm
    exact (Option.some.inj hm).symm
  · intro u x
    rw [hstage]
    rcases hw with ⟨k', rfl, rfl⟩ | ⟨rfl, rfl⟩
    · constructor
      · rintro (⟨rfl, rfl⟩ | hx)
        · exact .inl ⟨rfl, rfl, rfl⟩
        · exact .inr ⟨hreader u x hx, .inr hx⟩
      · rintro (⟨rfl, rfl, -⟩ | ⟨hu, hx | hx⟩)
        · exact .inl ⟨rfl, rfl⟩
        · exact absurd hx.1 hu
        · exact .inr hx
    · constructor
      · rintro (hx | hx)
        · cases hx
        · exact .inr ⟨hreader u x hx, .inr hx⟩
      · rintro (⟨-, -, hnone⟩ | ⟨hu, hx | hx⟩)
        · cases hnone
        · exact absurd hx.1 hu
        · exact .inr hx
  · intro hnone
    rcases hw with ⟨k', -, rfl⟩ | ⟨-, rfl⟩
    · cases hnone
    · exact ⟨_, rfl⟩
  · intro m hm
    rcases hw with ⟨k', -, rfl⟩ | ⟨-, rfl⟩
    · exact (Option.some.inj hm).symm
    · cases hm
  · exact ⟨by rw [hr]; exact Nat.zero_le _, by simp [hvalue]⟩
  · refine h.same_records ?_ (by rw [hs']) (by rw [hs']) (by rw [hs']) (by rw [hs'])
      (by rw [hs'])
    rw [hstage]
    rcases hw with ⟨k', rfl, -⟩ | ⟨rfl, -⟩ <;> rfl

theorem objects_goto (h : Staged stage s) (hg : (stage n).object = g.object) (m : ℕ) :
    (s.goto t v).objects m = if m = n then g.object else s.objects m := by
  split_ifs with hm
  · rw [hm, ← hg]
    exact h.objects n
  · rfl

/-- The step writes to the future, its semaphore or its eventfd. -/
theorem objects_set {o : Object} (hg : some o = g.object) (m : ℕ) :
    ((s.set n o).goto t v).objects m = if m = n then g.object else s.objects m := by
  rw [← hg]
  exact Function.update_apply ..

/-- Every step of `future_ready` finds what it needs. -/
theorem advanceReady (h : Staged stage s) {value : Addr} {k : ReadyPoint}
    (hpc : s.pc t = .ready n value k) :
    ∃ s' stage', s.advance t = .ok s' ∧ Staged stage' s' := by
  obtain ⟨r, hstage, hr⟩ := h.writer hpc
  have hallocated : r.allocated = true := by cases r <;> first | rfl | cases hr
  have hsemaphore : r.semaphoreAllocated = true := by cases r <;> first | rfl | cases hr
  have hopen : r.isOpen = true := by cases r <;> first | rfl | cases hr
  have hobject := h.objects n
  rw [hstage] at hobject
  cases k with
  | check =>
      refine ⟨_, _, ?_, h.moveWriter hpc hstage hr (.inl ⟨.flag, rfl, rfl⟩)
        (h.objects_goto (by rw [hstage]; rfl)) rfl⟩
      simp [State.advance, hpc, State.advanceReady, State.future, hobject, Stage.object,
        hallocated, Except.bind, Writer.flag]
  | flag =>
      refine ⟨_, _, ?_, h.moveWriter hpc hstage hr (.inl ⟨.result, rfl, rfl⟩)
        (objects_set rfl) rfl⟩
      simp [State.advance, hpc, State.advanceReady, State.future, hobject, Stage.object,
        hallocated, Except.bind, Writer.flag, Writer.result, Writer.posted]
  | result =>
      refine ⟨_, _, ?_, h.moveWriter hpc hstage hr (.inl ⟨.semaphore, rfl, rfl⟩)
        (objects_set rfl) rfl⟩
      simp [State.advance, hpc, State.advanceReady, State.future, hobject, Stage.object,
        hallocated, Except.bind, Writer.flag, Writer.result, Writer.posted]
  | semaphore =>
      refine ⟨_, _, ?_, h.moveWriter hpc hstage hr (.inl ⟨.fd, rfl, rfl⟩)
        (h.objects_goto (by rw [hstage]; rfl)) rfl⟩
      simp [State.advance, hpc, State.advanceReady, State.future, hobject, Stage.object,
        hallocated, Except.bind]
  | fd =>
      refine ⟨_, _, ?_, h.moveWriter hpc hstage hr (.inl ⟨.write, rfl, rfl⟩)
        (h.objects_goto (by rw [hstage]; rfl)) rfl⟩
      simp [State.advance, hpc, State.advanceReady, State.semaphore, hobject, Stage.object,
        hsemaphore, Except.bind]
  | write =>
      refine ⟨_, _, ?_, h.moveWriter hpc hstage hr (.inr ⟨rfl, rfl⟩) (objects_set rfl) rfl⟩
      simp [State.advance, hpc, State.advanceReady, State.onEventfd, hobject, Stage.object,
        hopen, hr, Except.bind, Writer.flag, Writer.result, Writer.posted]

end Staged

end Staged

end Future

end Osi
