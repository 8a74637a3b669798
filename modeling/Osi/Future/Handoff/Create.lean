import Osi.Future.Handoff.Await

/-!
# The steps of the constructors, and the calls

A future that is being created belongs to one thread. A call that keeps to the contract
finds its part of the future unused.
-/

namespace Osi

namespace Future

open Transition
open Memory (Addr)

section Staged

variable {T : Type*} {stage : ℕ → Stage T} {s s' : State T} {t : T} {n : ℕ} {v : Pc} {g : Stage T}

namespace Staged

variable [DecidableEq T]

omit [DecidableEq T] in
theorem creator (h : Staged stage s) {k : CreatePoint} (hpc : s.pc t = .create n k) :
    stage n = .creating t k := by
  have hclaims := h.claims_self (t := t) (n := n) (by rw [hpc]; rfl)
  rw [hpc] at hclaims
  cases hstage : stage n with
  | creating u k' =>
      rw [hstage] at hclaims
      obtain ⟨rfl, hk⟩ := hclaims
      cases hk
      rfl
  | shared w r =>
      rw [hstage] at hclaims
      rcases hclaims with hw | hr
      · cases w <;> first | cases hw; done | cases hw.2
      · cases r <;> first | cases hr; done | cases hr.2
  | immediate x r =>
      rw [hstage] at hclaims
      cases r <;> first | cases hclaims; done | cases hclaims.2
  | absent | failed =>
      rw [hstage] at hclaims
      cases hclaims

theorem moveCreator (h : Staged stage s) {k : CreatePoint} (hpc : s.pc t = .create n k)
    (hg : (∃ k', g = .creating t k' ∧ v = .create n k') ∨
      (∀ u x, ¬ g.Claims n u x) ∧ ∃ r, v = .idle r)
    (hobjects : ∀ m, s'.objects m = if m = n then g.object else s.objects m)
    (hpc' : s'.pc = Function.update s.pc t v) (hnext : s'.next = s.next) (hwf : g.Wf)
    (hrecorded : ∀ m, Recorded s' m (if m = n then g.record else (stage m).record)) :
    Staged (Function.update stage n g) s' := by
  have hstage := h.creator hpc
  have hlt := h.lt_next (n := n) (by rw [hstage]; simp)
  refine h.move (t := t) (v := v) ?_ hobjects hpc' ?_ ?_ ?_ hwf (by rw [hnext])
    (by rw [hnext]; exact hlt) hrecorded
  · intro m hm
    rw [hpc] at hm
    exact (Option.some.inj hm).symm
  · intro u x
    have hold : ¬ (u ≠ t ∧ (stage n).Claims n u x) := by
      rintro ⟨hu, hx⟩
      rw [hstage] at hx
      exact hu hx.1
    rw [or_iff_left hold]
    rcases hg with ⟨k', rfl, rfl⟩ | ⟨hnot, r, rfl⟩
    · simp [Stage.Claims, Pc.future]
    · simp [hnot, Pc.future]
  · intro hnone
    rcases hg with ⟨k', -, rfl⟩ | ⟨-, hidle⟩
    · cases hnone
    · exact hidle
  · intro m hm
    rcases hg with ⟨k', -, rfl⟩ | ⟨-, r, rfl⟩
    · exact (Option.some.inj hm).symm
    · cases hm

theorem advanceCreate (h : Staged stage s) {k : CreatePoint} (hpc : s.pc t = .create n k) :
    ∃ s' stage', s.advance t = .ok s' ∧ Staged stage' s' := by
  have hstage := h.creator hpc
  have hobject := h.objects n
  rw [hstage] at hobject
  cases k with
  | semaphore =>
      refine ⟨_, _, ?_, h.moveCreator hpc (.inl ⟨.eventfd, rfl, rfl⟩)
        (objects_set rfl) rfl rfl trivial
        (h.same_records (by rw [hstage]; rfl) rfl rfl rfl rfl rfl)⟩
      simp [State.advance, hpc, State.advanceCreate, State.future, hobject, Stage.object,
        Stage.created, Object.calloc, Except.bind]
  | eventfd =>
      refine ⟨_, _, ?_, h.moveCreator hpc (.inl ⟨.ready, rfl, rfl⟩)
        (objects_set rfl) rfl rfl trivial
        (h.same_records (by rw [hstage]; rfl) rfl rfl rfl rfl rfl)⟩
      simp [State.advance, hpc, State.advanceCreate, State.semaphore, hobject, Stage.object,
        Stage.created, Object.calloc, Except.bind]
  | ready =>
      refine ⟨{ s.set n _ with futures := s.futures ++ [n] }.goto t _, _, ?_,
        h.moveCreator (g := .shared .unused .unused) hpc
        (.inr ⟨fun _ _ hx => hx.elim id id, .future n, rfl⟩)
        (objects_set (t := t) (v := .idle .done) rfl) rfl rfl
        ⟨Nat.le_refl 0, by simp [Reader.value]⟩
        (h.new_records ?_ (fun m hm => by simp [State.goto, hm]) (fun _ _ _ => Iff.rfl)
          (fun _ _ _ => Iff.rfl) (fun _ _ => Iff.rfl) fun _ _ _ => Iff.rfl)⟩
      · simp [State.advance, hpc, State.advanceCreate, State.future, hobject, Stage.object,
          Stage.created, Object.calloc, Except.bind, Writer.flag, Writer.result,
          Writer.posted, Reader.allocated, Reader.semaphoreAllocated, Reader.isOpen]
      · have hold := h.recorded n
        rw [hstage] at hold
        exact ⟨by simp [State.goto, Stage.record], hold.immediates, hold.readied, hold.awaits,
          hold.awaited⟩
  | fail =>
      refine ⟨_, _, ?_, h.moveCreator (g := .failed) hpc (.inr ⟨fun _ _ => id, .null, rfl⟩)
        (objects_set rfl) rfl rfl trivial
        (h.same_records (by rw [hstage]; rfl) rfl rfl rfl rfl rfl)⟩
      simp [State.advance, hpc, State.advanceCreate, State.future, hobject, Stage.object,
        Stage.created, Object.calloc, Except.bind]
  | immediate value =>
      refine ⟨{ s.set n _ with immediates := s.immediates ++ [(n, value)] }.goto t _, _, ?_,
        h.moveCreator (g := .immediate value .unused) hpc
        (.inr ⟨fun _ _ hx => hx, .future n, rfl⟩)
        (objects_set (t := t) (v := .idle .done) rfl) rfl rfl ⟨rfl, by simp [Reader.value]⟩
        (h.new_records ?_ (fun _ _ => Iff.rfl) (fun m x hm => by simp [State.goto, hm])
          (fun _ _ _ => Iff.rfl) (fun _ _ => Iff.rfl) fun _ _ _ => Iff.rfl)⟩
      · simp [State.advance, hpc, State.advanceCreate, State.future, hobject, Stage.object,
          Stage.created, Object.calloc, Except.bind, Reader.allocated]
      · have hold := h.recorded n
        rw [hstage] at hold
        refine ⟨hold.futures, ?_, hold.readied, hold.awaits, hold.awaited⟩
        intro x
        have hnot : (n, x) ∉ s.immediates := by
          rw [hold.immediates]
          simp [Stage.record]
        simp [State.goto, hnot, Stage.record, eq_comm]

theorem fail (h : Staged stage s) (hs' : s.step (.fail t) = .ok s') :
    ∃ stage', Staged stage' s' := by
  simp only [State.step] at hs'
  split at hs'
  · rename_i n hpc
    have hstage := h.creator hpc
    have hobject := h.objects n
    rw [hstage] at hobject
    have hstep : (s.semaphore n).bind (fun o => Except.ok ((s.set n
        { o with semaphoreAllocated := false }).goto t (.create n .fail))) =
        .ok ((s.set n Object.calloc).goto t (.create n .fail)) := by
      simp [State.semaphore, hobject, Stage.object, Stage.created, Object.calloc, Except.bind]
    rw [hstep] at hs'
    cases hs'
    exact ⟨_, h.moveCreator hpc (.inl ⟨.fail, rfl, rfl⟩) (objects_set rfl) rfl rfl trivial
      (h.same_records (by rw [hstage]; rfl) rfl rfl rfl rfl rfl)⟩
  · cases hs'

theorem calloc (h : Staged stage s) {r : Result} (hpc : s.pc t = .idle r) {k : CreatePoint}
    (hk : Stage.created k = Object.calloc) : ∃ stage', Staged stage' (s.calloc t k) := by
  have habsent := h.fresh s.next (Nat.le_refl _)
  refine ⟨_, h.move (t := t) (n := s.next) (v := .create s.next k) (g := .creating t k) ?_
    ?_ rfl ?_ (fun hnone => by cases hnone) (fun m hm => (Option.some.inj hm).symm) trivial
    (Nat.le_succ _) (Nat.lt_succ_self _)
    (h.same_records (by rw [habsent]; rfl) rfl rfl rfl rfl rfl)⟩
  · intro m hm
    rw [hpc] at hm
    cases hm
  · intro m
    rw [Stage.object, hk]
    exact Function.update_apply ..
  · intro u x
    rw [habsent]
    simp [Stage.Claims, Pc.future]

theorem enterReady (h : Staged stage s) {r : Result} (hpc : s.pc t = .idle r)
    {value : Addr} (hcontract : State.Contract s (.call t (.ready n value))) :
    ∃ stage', Staged stage' (s.enter t (.ready n value)) := by
  obtain ⟨hfuture, hfirst⟩ := hcontract
  have hold := h.recorded n
  obtain ⟨rd, hstage⟩ : ∃ rd, stage n = .shared .unused rd := by
    cases hstage : stage n with
    | shared w rd =>
        cases w with
        | unused => exact ⟨rd, rfl⟩
        | busy _ x _ | done x =>
            rw [hstage] at hold
            exact absurd (List.mem_map_of_mem ((hold.readied x).mpr rfl)) hfirst
    | _ =>
        rw [hstage] at hold
        cases hold.futures.mp hfuture
  have hwf := h.wf n
  rw [hstage] at hold hwf
  have hlt := h.lt_next (n := n) (by rw [hstage]; simp)
  refine ⟨_, h.move (t := t) (n := n) (v := .ready n value .check)
    (g := .shared (.busy t value .check) rd) ?_
    (h.objects_goto (t := t) (v := .ready n value .check) (by rw [hstage]; rfl)) rfl ?_
    (fun hnone => by cases hnone)
    (fun m hm => (Option.some.inj hm).symm) ?_ (Nat.le_refl _) hlt
    (h.new_records ?_ (fun _ _ => Iff.rfl) (fun _ _ _ => Iff.rfl)
      (fun m x hm => by simp [State.enter, State.goto, hm]) (fun _ _ => Iff.rfl)
      fun _ _ _ => Iff.rfl)⟩
  · intro m hm
    rw [hpc] at hm
    cases hm
  · intro u x
    have hidle : ∀ v, ¬ (stage n).Claims n t v :=
      h.not_claims (by rw [hpc]; simp [Pc.future])
    rw [hstage] at hidle ⊢
    constructor
    · rintro (⟨rfl, rfl⟩ | hx)
      · exact .inl ⟨rfl, rfl, rfl⟩
      · refine .inr ⟨?_, .inr hx⟩
        rintro rfl
        exact hidle x (.inr hx)
    · rintro (⟨rfl, rfl, -⟩ | ⟨-, hx | hx⟩)
      · exact .inl ⟨rfl, rfl⟩
      · cases hx
      · exact .inr hx
  · refine ⟨hwf.1, ?_⟩
    intro x hx
    cases hwf.2 x hx
  · refine ⟨hold.futures, hold.immediates, ?_, hold.awaits, hold.awaited⟩
    intro x
    have hnot : (n, x) ∉ s.readied := fun hx => hfirst (List.mem_map_of_mem hx)
    simp [State.enter, State.goto, hnot, Stage.record, Writer.value, eq_comm]

theorem enterAwait (h : Staged stage s) {r : Result} (hpc : s.pc t = .idle r)
    (hcontract : State.Contract s (.call t (.await n))) :
    ∃ stage', Staged stage' (s.enter t (.await n)) := by
  obtain ⟨hfuture, hfirst⟩ := hcontract
  have hold := h.recorded n
  have hunused : (stage n).reader = .unused := by
    cases hreader : (stage n).reader with
    | unused => rfl
    | _ =>
        refine absurd (hold.awaits.mpr ?_) hfirst
        rw [(stage n).record_awaits.1, hreader]
        rfl
  have hstage : (∃ w, stage n = .shared w .unused) ∨ ∃ x, stage n = .immediate x .unused := by
    cases hstage : stage n with
    | shared w rd =>
        rw [hstage] at hunused
        exact .inl ⟨w, congrArg _ hunused⟩
    | immediate x rd =>
        rw [hstage] at hunused
        exact .inr ⟨x, congrArg _ hunused⟩
    | _ =>
        rw [hstage] at hold
        rcases hfuture with hfuture | himmediate
        · cases hold.futures.mp hfuture
        · obtain ⟨⟨m, x⟩, hx, rfl⟩ := List.mem_map.mp himmediate
          cases (hold.immediates x).mp hx
  have hwf := h.wf n
  have hidle : ∀ v, ¬ (stage n).Claims n t v :=
    h.not_claims (by rw [hpc]; simp [Pc.future])
  have hlt : n < s.next := by
    refine h.lt_next ?_
    rcases hstage with ⟨w, hstage⟩ | ⟨x, hstage⟩ <;> rw [hstage] <;> simp
  have hobject : (stage n).object = ((stage n).setReader (.awaiting t .check)).object := by
    rcases hstage with ⟨w, hstage⟩ | ⟨x, hstage⟩ <;> rw [hstage] <;> rfl
  refine ⟨_, h.move (t := t) (n := n) (v := .await n .check)
    (g := (stage n).setReader (.awaiting t .check)) ?_
    (h.objects_goto (t := t) (v := .await n .check) hobject) rfl ?_
    (fun hnone => by cases hnone) (fun m hm => (Option.some.inj hm).symm) ?_ (Nat.le_refl _)
    hlt (h.new_records ?_ (fun _ _ => Iff.rfl) (fun _ _ _ => Iff.rfl) (fun _ _ _ => Iff.rfl)
      (fun m hm => by simp [State.enter, State.goto, hm]) fun _ _ _ => Iff.rfl)⟩
  · intro m hm
    rw [hpc] at hm
    cases hm
  · intro u x
    rcases hstage with ⟨w, hstage⟩ | ⟨y, hstage⟩
    · rw [hstage] at hidle ⊢
      constructor
      · rintro (hx | ⟨rfl, rfl⟩)
        · refine .inr ⟨?_, .inl hx⟩
          rintro rfl
          exact hidle x (.inl hx)
        · exact .inl ⟨rfl, rfl, rfl⟩
      · rintro (⟨rfl, rfl, -⟩ | ⟨-, hx | hx⟩)
        · exact .inr ⟨rfl, rfl⟩
        · exact .inl hx
        · cases hx
    · rw [hstage]
      simp [Stage.setReader, Stage.Claims, Reader.Claims, Pc.future]
  · rcases hstage with ⟨w, hstage⟩ | ⟨x, hstage⟩
    · rw [hstage]
      exact ⟨Nat.zero_le _, by simp [Reader.value]⟩
    · rw [hstage]
      exact ⟨rfl, by simp [Reader.value]⟩
  · rcases hstage with ⟨w, hstage⟩ | ⟨x, hstage⟩
    · rw [hstage] at hold ⊢
      exact ⟨hold.futures, hold.immediates, hold.readied,
        by simp [State.enter, State.goto, Stage.setReader, Stage.record, Reader.used],
        hold.awaited⟩
    · rw [hstage] at hold ⊢
      exact ⟨hold.futures, hold.immediates, hold.readied,
        by simp [State.enter, State.goto, Stage.setReader, Stage.record, Reader.used],
        hold.awaited⟩

end Staged

end Staged

end Future

end Osi
