import Osi.Future.Handoff.Runs

/-!
# Every awaited future that is made ready is delivered

A `future_await` sleeps only while the `future_ready` of its future has not been
called or is under way, and a `future_ready` under way never waits for anything. So
once it is called, the two threads alone can bring the `future_await` to its end. The
measure is how many steps a call still has to take at most.
-/

namespace Osi

namespace Future

open Transition
open Memory (Addr)

namespace Pc

/-- The steps that a call still has to take, at most. -/
def rank : Pc → ℕ
  | idle _ => 0
  | create _ .semaphore => 3
  | create _ .eventfd => 2
  | create _ _ => 1
  | ready _ _ .check => 6
  | ready _ _ .flag => 5
  | ready _ _ .result => 4
  | ready _ _ .semaphore => 3
  | ready _ _ .fd => 2
  | ready _ _ .write => 1
  | await _ .check => 9
  | await _ .semaphore => 8
  | await _ .fd => 7
  | await _ .read => 6
  | await _ .result => 5
  | free _ _ .semaphore => 4
  | free _ _ .close => 3
  | free _ _ .releaseSemaphore => 2
  | free _ _ .release => 1

def reads : Pc → Option ℕ
  | await n _ | free n _ _ => some n
  | _ => none

def writes : Pc → Option ℕ
  | ready n _ _ => some n
  | _ => none

end Pc

/-- What a step of the thread `t` leaves to do: fewer steps of the same call, or none. -/
structure Advanced {T : Type*} [DecidableEq T] (s s' : State T) (t : T) (v : Pc) : Prop where
  pc : s'.pc = Function.update s.pc t v
  rank : v.rank < (s.pc t).rank
  readied : s'.readied = s.readied
  reads : ∀ n, (s.pc t).reads = some n →
    v.reads = some n ∨ ∃ value, v = .idle (.value value) ∧ (n, value) ∈ s'.awaited
  writes : ∀ n, (s.pc t).writes = some n → v.writes = some n ∨ ∃ r, v = .idle r

section Completion

variable {T : Type*} [DecidableEq T] {s s' : State T} {t : T} {n : ℕ}

theorem advanced_of_advance (h : s.advance t = .ok s') : ∃ v, Advanced s s' t v := by
  cases hpc : s.pc t with
  | idle r =>
      simp only [State.advance, hpc] at h
      cases h
  | create n k =>
      cases k
      all_goals
        simp only [State.advance, hpc, State.advanceCreate, Except.bind] at h
        split at h
        · cases h
        · cases h
          exact ⟨_, rfl, by simp [hpc, Pc.rank], rfl, by simp [hpc, Pc.reads],
            by simp [hpc, Pc.writes]⟩
  | ready n value k =>
      cases k
      all_goals
        simp only [State.advance, hpc, State.advanceReady, Except.bind] at h
        repeat' split at h
        all_goals cases h
        all_goals exact ⟨_, rfl, by simp [hpc, Pc.rank], rfl, by simp [hpc, Pc.reads],
          by simp [hpc, Pc.writes]⟩
  | await n k =>
      cases k
      all_goals
        simp only [State.advance, hpc, State.advanceAwait, Except.bind] at h
        repeat' split at h
        all_goals cases h
        all_goals exact ⟨_, rfl, by simp [hpc, Pc.rank], rfl, by simp [hpc, Pc.reads],
          by simp [hpc, Pc.writes]⟩
  | free n value k =>
      cases k
      all_goals
        simp only [State.advance, hpc, State.advanceFree, Except.bind] at h
        repeat' split at h
        all_goals cases h
        all_goals exact ⟨_, rfl, by simp [hpc, Pc.rank], rfl,
          by simp [hpc, Pc.reads, State.goto], by simp [hpc, Pc.writes]⟩

variable {stage : ℕ → Stage T}

/-- A `future_ready` under way comes to its end by its own steps. -/
theorem ready_completes (h : Staged stage s) (hwrites : (s.pc t).writes = some n) :
    ∃ ls s' stage' r, (∀ l ∈ ls, l = .run t) ∧ Run (Next State.step) s ls s' ∧
      Staged stage' s' ∧ s'.pc = Function.update s.pc t (.idle r) ∧
      s'.readied = s.readied := by
  induction hrank : (s.pc t).rank using Nat.strong_induction_on generalizing s stage with
  | _ rank ih =>
      cases hpc : s.pc t with
      | ready m value k =>
          obtain ⟨s₁, stage₁, hs₁, hstaged⟩ := h.advanceReady hpc
          obtain ⟨v, hadvanced⟩ := advanced_of_advance hs₁
          have hv : s₁.pc t = v := by rw [hadvanced.pc, Function.update_self]
          rcases hadvanced.writes n hwrites with hmore | ⟨r, rfl⟩
          · obtain ⟨ls, s', stage', r, hls, hrun, hstaged', hend, hreadied⟩ :=
              ih v.rank (hrank ▸ hadvanced.rank) hstaged (by rw [hv]; exact hmore)
                (by rw [hv])
            refine ⟨.run t :: ls, s', stage', r, ?_, hrun.cons hs₁, hstaged', ?_,
              hreadied.trans hadvanced.readied⟩
            · simpa using hls
            · rw [hend, hadvanced.pc, Function.update_idem]
          · exact ⟨[.run t], s₁, stage₁, r, by simp, .cons hs₁ (.nil s₁), hstaged,
              hadvanced.pc, hadvanced.readied⟩
      | _ =>
          rw [hpc] at hwrites
          cases hwrites

omit [DecidableEq T] in
/-- A `future_ready` that was called and has not written is under way. -/
theorem writing (h : Staged stage s) {w : Writer T} {r : Reader T} {value : Addr}
    (hstage : stage n = .shared w r) (hw : w.posted = 0) (hready : (n, value) ∈ s.readied) :
    ∃ u k, s.pc u = .ready n value k := by
  have hvalue := ((h.recorded n).readied value).mp hready
  rw [hstage] at hvalue
  cases w with
  | unused => cases hvalue
  | done x => cases hw
  | busy u x k =>
      cases hvalue
      exact ⟨u, k, h.claims n u _ (by rw [hstage]; exact .inl ⟨rfl, rfl⟩)⟩

/-- The end of `future_ready` wakes the thread in `future_await`. -/
theorem woken (h : Staged stage s) (hreads : (s.pc t).reads = some n) {value : Addr}
    (hready : (n, value) ∈ s.readied) :
    ∃ ls s₀ stage₀, (∀ l ∈ ls, ∃ u, l = .run u ∧ (s.pc u).writes = some n) ∧
      Run (Next State.step) s ls s₀ ∧ Staged stage₀ s₀ ∧ s₀.pc t = s.pc t ∧
      (∀ u, (s₀.pc u).writes = some n → (s.pc u).writes = some n) ∧
      s₀.readied = s.readied ∧
      ∃ s₁ stage₁, s₀.advance t = .ok s₁ ∧ Staged stage₁ s₁ := by
  rcases h.advance t with hok | ⟨r, hidle⟩ | ⟨-, m, k, w, r, hpc, hstage, hw⟩
  · exact ⟨[], s, stage, by simp, .nil s, h, rfl, fun _ hu => hu, rfl, hok⟩
  · rw [hidle] at hreads
    cases hreads
  · obtain rfl : m = n := by
      rw [hpc] at hreads
      exact Option.some.inj hreads
    obtain ⟨u, ku, hu⟩ := writing h hstage hw hready
    obtain ⟨ls, s₀, stage₀, r₀, hls, hrun, hstaged, hend, hreadied⟩ :=
      ready_completes h (t := u) (n := m) (by rw [hu]; rfl)
    have hut : t ≠ u := by
      rintro rfl
      rw [hu] at hpc
      cases hpc
    have ht : s₀.pc t = s.pc t := by rw [hend, Function.update_of_ne hut]
    have hwrites : ∀ x, (s₀.pc x).writes = some m → x ≠ u ∧ (s.pc x).writes = some m := by
      intro x hx
      rcases update_cases Pc.writes hx hend with ⟨-, hnone⟩ | hsome
      · cases hnone
      · exact hsome
    refine ⟨ls, s₀, stage₀, ?_, hrun, hstaged, ht, fun x hx => (hwrites x hx).2, hreadied, ?_⟩
    · intro l hl
      exact ⟨u, hls l hl, by rw [hu]; rfl⟩
    · rcases hstaged.advance t with hok | ⟨r₁, hidle⟩ | ⟨-, m', k', w', r', hpc', hstage', hw'⟩
      · exact hok
      · rw [ht, hpc] at hidle
        cases hidle
      · -- no second `future_ready` of the future is under way
        rw [ht, hpc] at hpc'
        cases hpc'
        obtain ⟨x, kx, hx⟩ := writing hstaged hstage' hw' (hreadied ▸ hready)
        obtain ⟨hne, -⟩ := hwrites x (by rw [hx]; rfl)
        rw [hend, Function.update_of_ne hne] at hx
        obtain ⟨r₁, hr₁, -⟩ := h.writer hx
        obtain ⟨r₂, hr₂, -⟩ := h.writer hu
        rw [hr₁] at hr₂
        cases hr₂
        exact absurd rfl hne

/-- A `future_await` whose `future_ready` was called comes to its end by the steps of
the two. -/
theorem await_completes (h : Staged stage s) (hreads : (s.pc t).reads = some n)
    {value : Addr} (hready : (n, value) ∈ s.readied) :
    ∃ ls s' stage' x, (∀ l ∈ ls, ∃ u, l = .run u ∧ (u = t ∨ (s.pc u).writes = some n)) ∧
      Run (Next State.step) s ls s' ∧ Staged stage' s' ∧ s'.pc t = .idle (.value x) ∧
      (n, x) ∈ s'.awaited ∧ s'.readied = s.readied := by
  induction hrank : (s.pc t).rank using Nat.strong_induction_on generalizing s stage with
  | _ rank ih =>
      obtain ⟨ls, s₀, stage₀, hls, hrun, -, ht, hwrites, hreadied, s₁, stage₁, hs₁,
        hstaged₁⟩ := woken h hreads hready
      obtain ⟨v, hadvanced⟩ := advanced_of_advance hs₁
      have hv : s₁.pc t = v := by rw [hadvanced.pc, Function.update_self]
      have hreadied₁ := hadvanced.readied.trans hreadied
      have hfirst : Run (Next State.step) s (ls ++ [.run t]) s₁ := hrun.snoc hs₁
      have hlabels : ∀ l ∈ ls ++ [.run t], ∃ u, l = .run u ∧
          (u = t ∨ (s.pc u).writes = some n) := by
        intro l hl
        rcases List.mem_append.mp hl with hl | hl
        · obtain ⟨u, rfl, hu⟩ := hls l hl
          exact ⟨u, rfl, .inr hu⟩
        · exact ⟨t, List.mem_singleton.mp hl, .inl rfl⟩
      have hcount := hadvanced.rank
      rw [ht, hrank] at hcount
      rcases hadvanced.reads n (ht.symm ▸ hreads) with hmore | ⟨x, rfl, hx⟩
      · obtain ⟨ls', s', stage', x, hls', hrun', hstaged', hend, hx, hreadied'⟩ :=
          ih v.rank hcount hstaged₁ (by rw [hv]; exact hmore) (hreadied₁ ▸ hready)
            (by rw [hv])
        refine ⟨ls ++ [.run t] ++ ls', s', stage', x, ?_, hfirst.append hrun', hstaged', hend,
          hx, hreadied'.trans hreadied₁⟩
        intro l hl
        rcases List.mem_append.mp hl with hl | hl
        · exact hlabels l hl
        · obtain ⟨u, rfl, hu⟩ := hls' l hl
          refine ⟨u, rfl, hu.imp_right ?_⟩
          intro hu
          rcases update_cases Pc.writes hu hadvanced.pc with ⟨rfl, hvw⟩ | ⟨-, hold⟩
          · cases v <;> first | cases hvw; done | cases hmore
          · exact hwrites u hold
      · exact ⟨ls ++ [.run t], s₁, stage₁, x, hlabels, hfirst, hstaged₁, hv, hx, hreadied₁⟩

end Completion

/-- In every run that keeps to the contract: as soon as `future_ready` was called with a
value on a future that a thread awaits, that thread and the one inside `future_ready`, if
it is still there, can go on by themselves until `future_await` returns the value. -/
theorem future_await_completes {T : Type*} [DecidableEq T] (s : State T) (t : T) (n : ℕ)
    (value : Addr) (h : Reachable (Guarded State.Contract (Next State.step)) State.init s)
    (hawaits : (s.pc t).reads = some n) (hready : (n, value) ∈ s.readied) :
    ∃ ls s', (∀ l ∈ ls, ∃ u, l = .run u ∧ (u = t ∨ (s.pc u).writes = some n)) ∧
      Run (Next State.step) s ls s' ∧ s'.pc t = .idle (.value value) := by
  obtain ⟨stage, hstaged⟩ := staged_of_reachable h
  obtain ⟨ls, s', stage', x, hls, hrun, hstaged', hend, hx, hreadied⟩ :=
    await_completes hstaged hawaits hready
  refine ⟨ls, s', hls, hrun, ?_⟩
  have hrecord := hstaged'.recorded n
  have hvalue := (hrecord.readied value).mp (hreadied ▸ hready)
  rcases hstaged'.returned hx with hsame | himmediate
  · have hx := (hrecord.readied x).mp hsame
    rw [hvalue] at hx
    cases hx
    exact hend
  · have himmediate := (hrecord.immediates x).mp himmediate
    cases hstage : stage' n <;> rw [hstage] at hvalue himmediate <;>
      first | cases himmediate; done | cases hvalue

def aboutToWrite : List (Label Bool) :=
  [.call true .new, .run true, .run true, .run true, .call false (.await 0), .run false,
    .run false, .run false, .call true (.ready 0 7), .run true, .run true, .run true,
    .run true, .run true]

theorem future_await_completes_aboutToWrite :
    ∃ s : State Bool, s.pc false = .await 0 .read ∧ s.pc true = .ready 0 7 .write ∧
      ∃ ls s', Run (Next State.step) s ls s' ∧ s'.pc false = .idle (.value 7) := by
  have hend : ((exec (fun s l => decide (State.Contract s l)) State.step State.init
      aboutToWrite).any fun s => decide (s.pc false = .await 0 .read ∧
        s.pc true = .ready 0 7 .write ∧ (0, 7) ∈ s.readied)) = true := by
    decide +kernel
  obtain ⟨s, hs, hend⟩ := (Option.any_eq_true _ _).mp hend
  obtain ⟨hfalse, htrue, hready⟩ := of_decide_eq_true hend
  obtain ⟨ls, s', -, hrun, hvalue⟩ := future_await_completes s false 0 7
    (Reachable.of_exec hs) (by rw [hfalse]; rfl) hready
  exact ⟨s, hfalse, htrue, ls, s', hrun, hvalue⟩

end Future

end Osi
