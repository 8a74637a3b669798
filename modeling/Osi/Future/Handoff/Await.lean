import Osi.Future.Handoff.Ready

/-!
# The steps of `future_await` and of the release

The value is read only after the counter, so `future_ready` has made its last access by
then.
-/

namespace Osi

namespace Future

open Transition
open Memory (Addr)

section Staged

variable {T : Type*} {stage : ℕ → Stage T} {s s' : State T} {t : T} {n : ℕ} {v : Pc} {g : Stage T}

namespace Staged

variable [DecidableEq T]

omit [DecidableEq T] in
theorem reader (h : Staged stage s) {r : Reader T} (hr : r.Claims n t (s.pc t)) :
    (∃ w, stage n = .shared w r) ∨ ∃ x, stage n = .immediate x r := by
  have hclaims := h.claims_self hr.future
  cases hstage : stage n with
  | shared w r' =>
      rw [hstage] at hclaims
      rcases hclaims with hw | hr'
      · exact absurd hr (hw.not_reader r n t)
      · exact .inl ⟨w, by rw [hr.unique hr']⟩
  | immediate x r' =>
      rw [hstage] at hclaims
      exact .inr ⟨x, by rw [hr.unique hclaims]⟩
  | creating u k' =>
      rw [hstage] at hclaims
      rw [hclaims.2] at hr
      cases r <;> first | cases hr; done | cases hr.2
  | absent | failed =>
      rw [hstage] at hclaims
      cases hclaims

/-- A step of `future_await` on a future with a semaphore or without. -/
theorem moveReader (h : Staged stage s) {r r' : Reader T} (hr : r.Claims n t (s.pc t))
    (hreader : (stage n).reader = r)
    (hnew : ∀ u x, r'.Claims n u x ↔ u = t ∧ x = v ∧ v.future = some n)
    (hv : v.future = some n ∨ ∃ value, v = .idle value)
    (hobjects : ∀ m, s'.objects m = if m = n then ((stage n).setReader r').object
      else s.objects m)
    (hpc : s'.pc = Function.update s.pc t v) (hnext : s'.next = s.next)
    (hwf : ((stage n).setReader r').Wf)
    (hrecorded : ∀ m, Recorded s' m
      (if m = n then ((stage n).setReader r').record else (stage m).record)) :
    Staged (Function.update stage n ((stage n).setReader r')) s' := by
  have hlt : n < s.next := by
    refine h.lt_next ?_
    intro habsent
    rw [habsent] at hreader
    subst hreader
    cases hr
  have hfuture := hr.future
  refine h.move (t := t) (v := v) ?_ hobjects hpc ?_ ?_ ?_ hwf (by rw [hnext])
    (by rw [hnext]; exact hlt) hrecorded
  · intro m hm
    rw [hfuture] at hm
    exact (Option.some.inj hm).symm
  · intro u x
    have hother : ∀ u x, r.Claims n u x → u = t := by
      intro u x hx
      cases r <;> first | cases hx; done | exact hx.1.trans hr.1.symm
    cases hstage : stage n with
    | shared w r₀ =>
        rw [hstage] at hreader
        subst hreader
        have hwriter : ∀ u x, w.Claims n u x → u ≠ t := by
          rintro u x hx rfl
          have hpc' := h.claims n u x (by rw [hstage]; exact .inl hx)
          exact hx.not_reader _ n u (hpc' ▸ hr)
        simp only [Stage.setReader, Stage.Claims, hnew]
        constructor
        · rintro (hx | hx)
          · exact .inr ⟨hwriter u x hx, .inl hx⟩
          · exact .inl hx
        · rintro (hx | ⟨hu, hx | hx⟩)
          · exact .inr hx
          · exact .inl hx
          · exact absurd (hother u x hx) hu
    | immediate y r₀ =>
        rw [hstage] at hreader
        subst hreader
        simp only [Stage.setReader, Stage.Claims, hnew]
        constructor
        · exact .inl
        · rintro (hx | ⟨hu, hx⟩)
          · exact hx
          · exact absurd (hother u x hx) hu
    | absent | failed | creating _ _ =>
        rw [hstage] at hreader
        subst hreader
        cases hr
  · intro hnone
    rcases hv with hsome | hidle
    · rw [hnone] at hsome
      cases hsome
    · exact hidle
  · intro m hm
    rcases hv with hsome | ⟨value, rfl⟩
    · exact Option.some.inj (hm.symm.trans hsome)
    · cases hm

/-- A step of `future_await` before its last one. -/
theorem moveReader_inner (h : Staged stage s) {r r' : Reader T}
    (hr : r.Claims n t (s.pc t)) (hreader : (stage n).reader = r)
    (hr' : (∃ k, r' = .awaiting t k ∧ v = .await n k) ∨
      ∃ value k, r' = .freeing t value k ∧ v = .free n value k)
    (hobjects : ∀ m, s'.objects m = if m = n then ((stage n).setReader r').object
      else s.objects m)
    (hs' : s' = { s with objects := s'.objects, pc := Function.update s.pc t v })
    (hwf : ((stage n).setReader r').Wf) :
    Staged (Function.update stage n ((stage n).setReader r')) s' := by
  have hused : r'.used = r.used ∧ r'.returned = r.returned := by
    rcases hr' with ⟨k, rfl, -⟩ | ⟨value, k, rfl, -⟩ <;>
      cases r <;> first | exact ⟨rfl, rfl⟩ | cases hr
  have hrecord : ((stage n).setReader r').record = (stage n).record := by
    rw [Stage.record_setReader (hr.ne_unused hreader), hused.1, hused.2, ← hreader,
      ← (stage n).record_awaits.1, ← (stage n).record_awaits.2]
  refine h.moveReader hr hreader ?_ (.inl ?_) hobjects (by rw [hs']) (by rw [hs']) hwf
    (h.same_records hrecord (by rw [hs']) (by rw [hs']) (by rw [hs']) (by rw [hs'])
      (by rw [hs']))
  · intro u x
    rcases hr' with ⟨k, rfl, rfl⟩ | ⟨value, k, rfl, rfl⟩ <;>
      simp [Reader.Claims, Pc.future]
  · rcases hr' with ⟨k, -, rfl⟩ | ⟨value, k, -, rfl⟩ <;> rfl

/-- Every step of `future_await` before `future_free` finds what it needs, or waits for
`future_ready`. -/
theorem advanceAwait (h : Staged stage s) {k : AwaitPoint} (hpc : s.pc t = .await n k) :
    (∃ s' stage', s.advance t = .ok s' ∧ Staged stage' s') ∨
      s.advance t = .error .blocked ∧
        ∃ w r, stage n = .shared w r ∧ w.posted = 0 := by
  have hclaims : (Reader.awaiting t k).Claims n t (s.pc t) := ⟨rfl, hpc⟩
  have hobject := h.objects n
  have hwf := h.wf n
  rcases h.reader hclaims with ⟨w, hstage⟩ | ⟨x, hstage⟩
  · have hreader : (stage n).reader = .awaiting t k := by rw [hstage]; rfl
    rw [hstage] at hobject hwf
    cases k with
    | check =>
        refine .inl ⟨_, _, ?_, h.moveReader_inner hclaims hreader
          (.inl ⟨.semaphore, rfl, rfl⟩) (h.objects_goto (by rw [hstage]; rfl)) rfl
          (by rw [hstage]; exact hwf)⟩
        simp [State.advance, hpc, State.advanceAwait, State.future, hobject, Stage.object,
          Reader.allocated, Except.bind]
    | semaphore =>
        refine .inl ⟨_, _, ?_, h.moveReader_inner hclaims hreader
          (.inl ⟨.fd, rfl, rfl⟩) (h.objects_goto (by rw [hstage]; rfl)) rfl
          (by rw [hstage]; exact hwf)⟩
        simp [State.advance, hpc, State.advanceAwait, State.future, hobject, Stage.object,
          Reader.allocated, Except.bind]
    | fd =>
        refine .inl ⟨_, _, ?_, h.moveReader_inner hclaims hreader
          (.inl ⟨.read, rfl, rfl⟩) (h.objects_goto (by rw [hstage]; rfl)) rfl
          (by rw [hstage]; exact hwf)⟩
        simp [State.advance, hpc, State.advanceAwait, State.semaphore, hobject,
          Stage.object, Reader.semaphoreAllocated, Except.bind]
    | read =>
        cases w with
        | done value =>
            refine .inl ⟨_, _, ?_, h.moveReader_inner hclaims hreader
              (.inl ⟨.result, rfl, rfl⟩) (objects_set (by rw [hstage]; rfl)) rfl
              (by rw [hstage]; exact ⟨Nat.le_refl 1, by simp [Reader.value]⟩)⟩
            simp [State.advance, hpc, State.advanceAwait, State.onEventfd, hobject,
              Stage.object, Reader.isOpen, Reader.taken, Reader.allocated,
              Reader.semaphoreAllocated, Writer.posted, Except.bind]
        | unused | busy u value k =>
            refine .inr ⟨?_, _, _, hstage, rfl⟩
            simp [State.advance, hpc, State.advanceAwait, State.onEventfd, hobject,
              Stage.object, Reader.isOpen, Writer.posted, Except.bind]
    | result =>
        cases w with
        | done value =>
            refine .inl ⟨_, _, ?_, h.moveReader_inner hclaims hreader
              (.inr ⟨value, .semaphore, rfl, rfl⟩) (h.objects_goto (by rw [hstage]; rfl)) rfl
              (by rw [hstage]; exact ⟨Nat.le_refl 1, by simp [Reader.value]⟩)⟩
            simp [State.advance, hpc, State.advanceAwait, State.future, hobject,
              Stage.object, Reader.allocated, Writer.result, Except.bind]
        | unused | busy u value k => exact absurd hwf.1 (by simp [Reader.taken, Writer.posted])
  · have hreader : (stage n).reader = .awaiting t k := by rw [hstage]; rfl
    rw [hstage] at hobject hwf
    cases k with
    | check =>
        refine .inl ⟨_, _, ?_, h.moveReader_inner hclaims hreader
          (.inl ⟨.result, rfl, rfl⟩) (h.objects_goto (by rw [hstage]; rfl)) rfl
          (by rw [hstage]; exact hwf)⟩
        simp [State.advance, hpc, State.advanceAwait, State.future, hobject, Stage.object,
          Reader.allocated, Except.bind]
    | result =>
        refine .inl ⟨_, _, ?_, h.moveReader_inner hclaims hreader
          (.inr ⟨x, .semaphore, rfl, rfl⟩) (h.objects_goto (by rw [hstage]; rfl)) rfl
          (by rw [hstage]; exact ⟨rfl, by simp [Reader.value]⟩)⟩
        simp [State.advance, hpc, State.advanceAwait, State.future, hobject, Stage.object,
          Reader.allocated, Except.bind]
    | semaphore | fd | read => cases hwf.1

theorem moveReader_done (h : Staged stage s) {value : Addr} {o : Object}
    (hpc : s.pc t = .free n value .release)
    (hreader : (stage n).reader = .freeing t value .release)
    (ho : some o = ((stage n).setReader (.done value)).object)
    (hwf : ((stage n).setReader (.done value)).Wf) :
    Staged (Function.update stage n ((stage n).setReader (.done value)))
      ({ s.set n o with awaited := s.awaited ++ [(n, value)] }.goto t
        (.idle (.value value))) := by
  have hclaims : (Reader.freeing t value .release).Claims n t (s.pc t) := ⟨rfl, hpc⟩
  have hrecord := Stage.record_setReader (hclaims.ne_unused hreader) (.done value)
  have hbefore := (stage n).record_awaits
  rw [hreader] at hbefore
  refine h.moveReader (v := .idle (.value value)) hclaims hreader ?_ (.inr ⟨_, rfl⟩)
    (objects_set (t := t) (v := .idle .done) ho) rfl rfl hwf ?_
  · intro u x
    simp [Reader.Claims, Pc.future]
  · have hold := h.recorded n
    refine h.new_records ?_ (fun _ _ => Iff.rfl) (fun _ _ _ => Iff.rfl) (fun _ _ _ => Iff.rfl)
      (fun _ _ => Iff.rfl) (fun m x hm => by simp [State.goto, hm])
    rw [hrecord]
    refine ⟨hold.futures, hold.immediates, hold.readied, ?_, ?_⟩
    · exact hold.awaits.trans (by rw [hbefore.1]; rfl)
    · intro x
      have hnot : (n, x) ∉ s.awaited := by
        rw [hold.awaited, hbefore.2]
        simp [Reader.returned]
      simp [State.goto, hnot, Reader.returned, eq_comm]

/-- Every step of `future_free` finds what it releases. -/
theorem advanceFree (h : Staged stage s) {value : Addr} {k : FreePoint}
    (hpc : s.pc t = .free n value k) :
    ∃ s' stage', s.advance t = .ok s' ∧ Staged stage' s' := by
  have hclaims : (Reader.freeing t value k).Claims n t (s.pc t) := ⟨rfl, hpc⟩
  have hobject := h.objects n
  have hwf := h.wf n
  rcases h.reader hclaims with ⟨w, hstage⟩ | ⟨x, hstage⟩
  · have hreader : (stage n).reader = .freeing t value k := by rw [hstage]; rfl
    rw [hstage] at hobject hwf
    obtain rfl := hwf.2 value rfl
    cases k with
    | semaphore =>
        refine ⟨_, _, ?_, h.moveReader_inner hclaims hreader (.inr ⟨value, .close, rfl, rfl⟩)
          (h.objects_goto (by rw [hstage]; rfl)) rfl (by rw [hstage]; exact hwf)⟩
        simp [State.advance, hpc, State.advanceFree, State.future, hobject, Stage.object,
          Reader.allocated, Except.bind]
    | close =>
        refine ⟨_, _, ?_, h.moveReader_inner hclaims hreader
          (.inr ⟨value, .releaseSemaphore, rfl, rfl⟩) (objects_set (by rw [hstage]; rfl)) rfl
          (by rw [hstage]; exact hwf)⟩
        simp [State.advance, hpc, State.advanceFree, State.semaphore, State.onEventfd,
          hobject, Stage.object, Reader.allocated, Reader.semaphoreAllocated, Reader.isOpen,
          Except.bind]
    | releaseSemaphore =>
        refine ⟨_, _, ?_, h.moveReader_inner hclaims hreader
          (.inr ⟨value, .release, rfl, rfl⟩) (objects_set (by rw [hstage]; rfl)) rfl
          (by rw [hstage]; exact hwf)⟩
        simp [State.advance, hpc, State.advanceFree, State.semaphore, hobject, Stage.object,
          Reader.allocated, Reader.semaphoreAllocated, Reader.isOpen, Except.bind]
    | release =>
        refine ⟨_, _, ?_, h.moveReader_done hpc hreader (by rw [hstage]; rfl)
          (by rw [hstage]; exact hwf)⟩
        simp [State.advance, hpc, State.advanceFree, State.future, hobject, Stage.object,
          Reader.allocated, Reader.semaphoreAllocated, Reader.isOpen, Except.bind]
  · have hreader : (stage n).reader = .freeing t value k := by rw [hstage]; rfl
    rw [hstage] at hobject hwf
    cases k with
    | semaphore =>
        refine ⟨_, _, ?_, h.moveReader_inner hclaims hreader
          (.inr ⟨value, .release, rfl, rfl⟩) (h.objects_goto (by rw [hstage]; rfl)) rfl
          (by rw [hstage]; exact ⟨rfl, hwf.2⟩)⟩
        simp [State.advance, hpc, State.advanceFree, State.future, hobject, Stage.object,
          Reader.allocated, Except.bind]
    | release =>
        refine ⟨_, _, ?_, h.moveReader_done hpc hreader (by rw [hstage]; rfl)
          (by rw [hstage]; exact hwf)⟩
        simp [State.advance, hpc, State.advanceFree, State.future, hobject, Stage.object,
          Reader.allocated, Except.bind]
    | close | releaseSemaphore => cases hwf.1

end Staged

end Staged

end Future

end Osi
