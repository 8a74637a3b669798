import Osi.Metrics.Basic

/-!
# No event is lost and no call is blocked

A clearing call takes the events out of the log before it knows whether its text is
made and written, and carries them until then. The invariant says that every event is
in the log, in a written text, or carried, and that `log_lock` is held exactly inside
the critical sections. Two kinds of steps break it. A failed `SerializeToString`
returns with the lock held. A failed `PrintToString`, `Base64Encode` or `write` of a
clearing call drops the events that it carries. A failure is harmless if it is neither
of these, or if the events that it drops are in a written text already.

From every state that is reached without a harmful failure every call can come to its
end: the owner of the lock leaves its section first.
-/

namespace Osi

namespace Metrics

open Transition

variable {T : Type*}

/-! ## Where the events are -/

def State.Written (s : State T) (e : Entry) : Prop := ∃ text ∈ s.written, e ∈ text

instance (s : State T) (e : Entry) : Decidable (s.Written e) := by
  unfold State.Written
  infer_instance

def Pc.carried : Pc → List Entry
  | .unlocking _ output => if output.clear then output.contents else []
  | .encoding output => if output.clear then output.contents else []
  | .writing output => if output.clear then output.contents else []
  | _ => []

def Pc.toClear : Pc → Option (List Entry)
  | .clearing _ output => if output.clear then some output.contents else none
  | _ => none

theorem Pc.holds_of_toClear {pc : Pc} {text : List Entry} (h : pc.toClear = some text) :
    pc.holds = true := by
  cases pc with
  | clearing => rfl
  | _ => cases h

theorem forall_carried {P : Entry → Prop} {s : State T} {t : T} {pc : Pc} (hpc : s.pc t = pc)
    (hnil : pc.carried = []) : ∀ e ∈ (s.pc t).carried, P e := by
  rw [hpc, hnil]
  exact List.forall_mem_nil P

/-- The failures that break nothing. -/
def Harmless (s : State T) : Label T → Prop
  | .call _ _ => True
  | .run _ true => True
  | .run t false =>
      match s.pc t with
      | .serializing .write _ => False
      | .serializing .print clear => clear = true → ∀ e ∈ s.log, s.Written e
      | .encoding output => output.clear = true → ∀ e ∈ output.contents, s.Written e
      | .writing output => output.clear = true → ∀ e ∈ output.contents, s.Written e
      | _ => True

instance (s : State T) (l : Label T) : Decidable (Harmless s l) := by
  unfold Harmless
  split <;> try infer_instance
  split <;> infer_instance

/-! ## The steps -/

inductive Moves [DecidableEq T] (s : State T) (t : T) : Bool → State T → Prop
  | lock {ok : Bool} (call : Call) (v : Pc) (hpc : s.pc t = .locking call)
      (hfree : s.logLock = none) (hholds : v.holds = true) (hclear : v.toClear = none) :
      Moves s t ok ({ s with logLock := some t, pending := some s.log }.goto t v)
  | add {ok : Bool} (event : Event) (hpc : s.pc t = .adding event) :
      Moves s t ok ({ s with
        pending := some (s.log ++ [Entry.mk s.logged.length event])
        logged := s.logged ++ [Entry.mk s.logged.length event] }.goto t .unlockGuard)
  | unlockGuard {ok : Bool} (hpc : s.pc t = .unlockGuard) :
      Moves s t ok ({ s with logLock := none }.goto t .idle)
  | serialize (writer : Writer) (clear : Bool) (hpc : s.pc t = .serializing writer clear) :
      Moves s t true (s.goto t (.clearing writer ⟨s.log, clear⟩))
  | serializeError (clear : Bool) (hpc : s.pc t = .serializing .write clear) :
      Moves s t false (s.goto t .idle)
  | printError (clear : Bool) (hpc : s.pc t = .serializing .print clear) :
      Moves s t false (s.goto t (.clearing .print ⟨[], clear⟩))
  | clear {ok : Bool} (writer : Writer) (output : Output)
      (hpc : s.pc t = .clearing writer output) :
      Moves s t ok ({ s with pending := if output.clear then some [] else s.pending }.goto t
        (.unlocking writer output))
  | unlock {ok : Bool} (writer : Writer) (output : Output) (v : Pc)
      (hpc : s.pc t = .unlocking writer output) (hv : v = .encoding output ∨ v = .writing output) :
      Moves s t ok ({ s with logLock := none }.goto t v)
  | encode {ok : Bool} (output : Output) (hpc : s.pc t = .encoding output) :
      Moves s t ok (s.goto t (.writing
        { output with contents := if ok then output.contents else [] }))
  | write {ok : Bool} (output : Output) (hpc : s.pc t = .writing output) :
      Moves s t ok ({ s with
        written := if ok then s.written ++ [output.contents] else s.written }.goto t .idle)

section

variable [DecidableEq T] {s s' : State T} {t : T} {ok : Bool}

theorem moves_of_advance (h : s.advance t ok = .ok s') : Moves s t ok s' := by
  unfold State.advance at h
  split at h
  · cases h
  · rename_i call hpc
    split_ifs at h with hfree
    cases call with
    | record record =>
        cases h
        exact .lock (.record record) _ hpc hfree rfl rfl
    | output writer clear =>
        cases h
        exact .lock (.output writer clear) _ hpc hfree rfl rfl
  · rename_i event hpc
    cases h
    exact .add event hpc
  · rename_i hpc
    cases h
    exact .unlockGuard hpc
  · rename_i writer clear hpc
    cases ok with
    | true =>
        cases h
        exact .serialize writer clear hpc
    | false =>
        cases writer with
        | write =>
            cases h
            exact .serializeError clear hpc
        | print =>
            cases h
            exact .printError clear hpc
  · rename_i writer output hpc
    cases h
    exact .clear writer output hpc
  · rename_i writer output hpc
    cases h
    cases writer with
    | write => exact .unlock .write output _ hpc (.inl rfl)
    | print => exact .unlock .print output _ hpc (.inr rfl)
  · rename_i output hpc
    cases h
    exact .encode output hpc
  · rename_i output hpc
    cases h
    exact .write output hpc

end

/-! ## The invariant -/

/-- The lock is held exactly inside the critical sections, a text for which the log is to
be cleared has what the log has, and every event is somewhere. -/
structure Invariant (s : State T) : Prop where
  exclusive : Exclusive Pc.holds s.logLock s.pc
  complete : ∀ t text, (s.pc t).toClear = some text →
    ∀ e ∈ s.log, e ∈ text ∨ s.Written e
  delivered : ∀ e ∈ s.logged, e ∈ s.log ∨ s.Written e ∨ ∃ t, e ∈ (s.pc t).carried

namespace Invariant

theorem init : Invariant (init : State T) where
  exclusive t := by simp [Metrics.init, Pc.holds]
  complete t text h := absurd h (by simp [Metrics.init, Pc.toClear])
  delivered e he := absurd he (by simp [Metrics.init])

variable [DecidableEq T] {s s' : State T} {t : T} {v : Pc} {ok : Bool}

/-- A step of the thread `t` to the point `v`. What leaves the log or was carried by `t`
is written or is carried at `v`. -/
theorem move (h : Invariant s) (hpc : s'.pc = Function.update s.pc t v)
    (hexclusive : Exclusive Pc.holds s'.logLock s'.pc)
    (hsame : s'.log = s.log ∨ (s.pc t).holds = true)
    (hwritten : ∀ e, s.Written e → s'.Written e)
    (hlogged : ∀ e ∈ s'.logged, e ∈ s.logged ∨ e ∈ s'.log)
    (hlog : ∀ e ∈ s.log, e ∈ s'.log ∨ s'.Written e ∨ e ∈ v.carried)
    (hcarried : ∀ e ∈ (s.pc t).carried, s'.Written e ∨ e ∈ v.carried)
    (hclear : ∀ text, v.toClear = some text → ∀ e ∈ s'.log, e ∈ text ∨ s'.Written e) :
    Invariant s' where
  exclusive := hexclusive
  complete := by
    intro u text htext e he
    obtain ⟨rfl, hv⟩ | ⟨hut, hold⟩ := update_cases Pc.toClear htext hpc
    · exact hclear text hv e he
    · -- another thread at this point has the lock, and so the log did not change
      cases hsame with
      | inl hsame =>
          rw [hsame] at he
          exact (h.complete u text hold e he).imp id (hwritten e)
      | inr hholds =>
          exact absurd (h.exclusive.unique (Pc.holds_of_toClear hold) hholds) hut
  delivered := by
    have hat : ∀ {e}, e ∈ v.carried → ∃ u, e ∈ (s'.pc u).carried := by
      intro e he
      exact ⟨t, by rwa [hpc, Function.update_self]⟩
    intro e he
    obtain hold | hnew := hlogged e he
    · obtain hin | hout | ⟨u, hu⟩ := h.delivered e hold
      · exact (hlog e hin).imp id (Or.imp id hat)
      · exact .inr (.inl (hwritten e hout))
      · by_cases hut : u = t
        · subst hut
          exact .inr ((hcarried e hu).imp id hat)
        · exact .inr (.inr ⟨u, by rwa [hpc, Function.update_of_ne hut]⟩)
    · exact .inl hnew

/-- A step that changes only the program point, with the lock held or not. -/
theorem goto (h : Invariant s) (hholds : v.holds = (s.pc t).holds)
    (hcarried : ∀ e ∈ (s.pc t).carried, s.Written e ∨ e ∈ v.carried)
    (hclear : ∀ text, v.toClear = some text → ∀ e ∈ s.log, e ∈ text ∨ s.Written e) :
    Invariant (s.goto t v) :=
  h.move rfl (h.exclusive.move hholds) (.inl rfl) (fun _ => id) (fun _ => .inl)
    (fun _ => .inl) hcarried hclear

theorem release (h : Invariant s) (hheld : (s.pc t).holds = true) (hv : v.holds = false)
    (hcarried : ∀ e ∈ (s.pc t).carried, e ∈ v.carried) :
    Invariant ({ s with logLock := none }.goto t v) := by
  refine h.move rfl (h.exclusive.release hheld hv) (.inl rfl) (fun _ => id) (fun _ => .inl)
    (fun _ => .inl) (fun e he => .inr (hcarried e he)) ?_
  intro text htext
  rw [Pc.holds_of_toClear htext] at hv
  cases hv

theorem advance (h : Invariant s) (hharmless : Harmless s (.run t ok))
    (hmove : Moves s t ok s') : Invariant s' := by
  cases hmove with
  | lock call v hpc hfree hholds hclear =>
      have hexclusive := h.exclusive
      rw [hfree] at hexclusive
      refine h.move rfl (hexclusive.acquire hholds) (.inl rfl) (fun _ => id) (fun _ => .inl)
        (fun _ => .inl) (forall_carried hpc rfl) ?_
      intro text htext
      rw [hclear] at htext
      cases htext
  | add event hpc =>
      have hheld : (s.pc t).holds = true := by rw [hpc]; rfl
      refine h.move rfl (h.exclusive.move hheld.symm) (.inr hheld) (fun _ => id) ?_ ?_
        (forall_carried hpc rfl) (fun text htext => by cases htext)
      · intro e he
        obtain hold | hnew := List.mem_append.mp he
        · exact .inl hold
        · exact .inr (List.mem_append_right s.log hnew)
      · intro e he
        exact .inl (List.mem_append_left _ he)
  | unlockGuard hpc =>
      exact h.release (by rw [hpc]; rfl) rfl (forall_carried hpc rfl)
  | serialize writer clear hpc =>
      refine h.goto (by rw [hpc]; rfl) (forall_carried hpc rfl) ?_
      intro text htext e he
      cases clear with
      | true =>
          cases htext
          exact .inl he
      | false => cases htext
  | serializeError clear hpc =>
      rw [Harmless, hpc] at hharmless
      exact hharmless.elim
  | printError clear hpc =>
      rw [Harmless, hpc] at hharmless
      refine h.goto (by rw [hpc]; rfl) (forall_carried hpc rfl) ?_
      intro text htext e he
      cases clear with
      | true => exact .inr (hharmless rfl e he)
      | false => cases htext
  | clear writer output hpc =>
      have hheld : (s.pc t).holds = true := by rw [hpc]; rfl
      refine h.move rfl (h.exclusive.move hheld.symm) (.inr hheld) (fun _ => id)
        (fun _ => .inl) ?_ (forall_carried hpc rfl) (fun text htext => by cases htext)
      intro e he
      cases hclear : output.clear with
      | true =>
          obtain hin | hout := h.complete t output.contents
            (by simp [hpc, Pc.toClear, hclear]) e he
          · exact .inr (.inr (by simpa [Pc.carried, hclear] using hin))
          · exact .inr (.inl hout)
      | false => exact .inl (by simpa [State.goto, State.log, hclear] using he)
  | unlock writer output v hpc hv =>
      have hout : v.holds = false ∧ v.carried = (s.pc t).carried := by
        rw [hpc]
        obtain rfl | rfl := hv
        · exact ⟨rfl, rfl⟩
        · exact ⟨rfl, rfl⟩
      refine h.release (by rw [hpc]; rfl) hout.1 ?_
      rw [hout.2]
      exact fun _ => id
  | encode output hpc =>
      refine h.goto (by rw [hpc]; rfl) ?_ (fun text htext => by cases htext)
      intro e he
      rw [hpc] at he
      cases ok with
      | true => exact .inr he
      | false =>
          rw [Harmless, hpc] at hharmless
          simp only [Pc.carried] at he
          split_ifs at he with hclear
          · exact .inl (hharmless hclear e he)
          · cases he
  | write output hpc =>
      have hmono : ∀ e, s.Written e →
          ∃ text ∈ (if ok then s.written ++ [output.contents] else s.written), e ∈ text := by
        rintro e ⟨text, htext, he⟩
        cases ok with
        | true => exact ⟨text, List.mem_append_left _ htext, he⟩
        | false => exact ⟨text, htext, he⟩
      refine h.move rfl (h.exclusive.move (by rw [hpc]; rfl)) (.inl rfl) hmono (fun _ => .inl)
        (fun _ => .inl) ?_ (fun text htext => by cases htext)
      intro e he
      rw [hpc] at he
      simp only [Pc.carried] at he
      split_ifs at he with hclear
      · cases ok with
        | true => exact .inl ⟨output.contents, by simp [State.goto], he⟩
        | false =>
            rw [Harmless, hpc] at hharmless
            exact .inl (hmono e (hharmless hclear e he))
      · cases he

theorem step (h : Invariant s) {l : Label T} (hharmless : Harmless s l)
    (hstep : s.step l = .ok s') : Invariant s' := by
  cases l with
  | call t call =>
      simp only [State.step] at hstep
      split_ifs at hstep with hidle
      cases hstep
      exact h.goto (by rw [hidle]; rfl) (forall_carried hidle rfl)
        (fun text htext => by cases htext)
  | run t ok => exact h.advance hharmless (moves_of_advance hstep)

end Invariant

/-! ## Every call can come to its end -/

/-- The most steps that a call at this point still takes. -/
def Pc.remaining : Pc → ℕ
  | .idle => 0
  | .unlockGuard => 1
  | .adding _ => 2
  | .writing _ => 1
  | .encoding _ => 2
  | .unlocking _ _ => 3
  | .clearing _ _ => 4
  | .serializing _ _ => 5
  | .locking _ => 6

section

variable [DecidableEq T] {s : State T} {t : T}

/-- A thread that does not wait for the lock goes on. -/
theorem advance_enabled (hbusy : s.pc t ≠ .idle)
    (hfree : (s.pc t).remaining = 6 → s.logLock = none) :
    ∃ s' v, s.advance t true = .ok s' ∧ s'.pc = Function.update s.pc t v ∧
      v.remaining < (s.pc t).remaining := by
  unfold State.advance
  cases hpc : s.pc t with
  | idle => exact absurd hpc hbusy
  | locking call =>
      rw [hpc] at hfree
      simp only [hfree rfl, if_true]
      cases call with
      | record record => exact ⟨_, .adding record.event, rfl, rfl, by simp [Pc.remaining]⟩
      | output writer clear =>
          exact ⟨_, .serializing writer clear, rfl, rfl, by simp [Pc.remaining]⟩
  | adding event => exact ⟨_, .unlockGuard, rfl, rfl, by simp [Pc.remaining]⟩
  | unlockGuard => exact ⟨_, .idle, rfl, rfl, by simp [Pc.remaining]⟩
  | serializing writer clear => exact ⟨_, .clearing writer _, rfl, rfl, by simp [Pc.remaining]⟩
  | clearing writer output => exact ⟨_, .unlocking writer output, rfl, rfl, by simp [Pc.remaining]⟩
  | unlocking writer output =>
      cases writer with
      | write => exact ⟨_, .encoding output, rfl, rfl, by simp [Pc.remaining]⟩
      | print => exact ⟨_, .writing output, rfl, rfl, by simp [Pc.remaining]⟩
  | encoding output => exact ⟨_, .writing _, rfl, rfl, by simp [Pc.remaining]⟩
  | writing output => exact ⟨_, .idle, rfl, rfl, by simp [Pc.remaining]⟩

theorem Pc.remaining_le (pc : Pc) : pc.remaining ≤ 6 := by
  cases pc <;> simp [Pc.remaining]

/-- A thread that has the lock, or needs it no more, or finds it free comes to the end of
its call by its own steps. -/
theorem exists_finished (hfree : (s.pc t).remaining = 6 → s.logLock = none) :
    ∃ s', Reachable (Guarded Harmless (Next State.step)) s s' ∧ s'.pc t = .idle ∧
      ∀ u, u ≠ t → s'.pc u = s.pc u := by
  induction hn : (s.pc t).remaining using Nat.strong_induction_on generalizing s with
  | _ n ih =>
      by_cases hidle : s.pc t = .idle
      · exact ⟨s, .refl s, hidle, fun _ _ => rfl⟩
      · obtain ⟨s₁, v, hnext, hpc, hless⟩ := advance_enabled hidle hfree
        have hat : s₁.pc t = v := by rw [hpc, Function.update_self]
        have hbelow : (s₁.pc t).remaining < n := by rwa [hat, ← hn]
        have hstep : Guarded Harmless (Next State.step) s (.run t true) s₁ := ⟨trivial, hnext⟩
        -- the next point is not the one that waits for the lock
        have hpast : (s₁.pc t).remaining = 6 → s₁.logLock = none := by
          intro hsix
          have := (s.pc t).remaining_le
          omega
        obtain ⟨s₂, hreach, hend, hothers⟩ := ih _ hbelow hpast rfl
        refine ⟨s₂, (Reachable.refl s).snoc hstep |>.trans hreach, hend, ?_⟩
        intro u hu
        rw [hothers u hu, hpc, Function.update_of_ne hu]

theorem Invariant.of_reachable (h : Invariant s) {s' : State T}
    (hreach : Reachable (Guarded Harmless (Next State.step)) s s') : Invariant s' :=
  hreach.invariant (fun _ _ _ hinv hstep => hinv.step hstep.1 hstep.2) h

/-- A call of any thread can be finished: first that of the owner of the lock. -/
theorem Invariant.exists_idle (h : Invariant s) (t : T) :
    ∃ s', Reachable (Guarded Harmless (Next State.step)) s s' ∧ s'.pc t = .idle := by
  cases hlock : s.logLock with
  | none =>
      obtain ⟨s', hreach, hend, -⟩ := exists_finished (t := t) fun _ => hlock
      exact ⟨s', hreach, hend⟩
  | some u =>
      have hheld : (s.pc u).holds = true := (h.exclusive u).mpr hlock
      have hinside : (s.pc u).remaining = 6 → s.logLock = none := by
        intro hsix
        cases hpc : s.pc u <;> rw [hpc] at hheld hsix <;> cases hheld <;> cases hsix
      obtain ⟨s₁, hreach, hidle, hothers⟩ := exists_finished hinside
      have hfree : s₁.logLock = none := by
        cases hlock₁ : s₁.logLock with
        | none => rfl
        | some w =>
            have hw : (s₁.pc w).holds = true := ((h.of_reachable hreach).exclusive w).mpr hlock₁
            by_cases hwu : w = u
            · subst hwu
              rw [hidle] at hw
              cases hw
            · rw [hothers w hwu] at hw
              exact absurd (h.exclusive.unique hw hheld) hwu
      obtain ⟨s₂, hrest, hend, -⟩ := exists_finished (t := t) fun _ => hfree
      exact ⟨s₂, hreach.trans hrest, hend⟩

end

/-! ## The guarantee -/

theorem Invariant.quiet {s : State T} (h : Invariant s) (hquiet : s.Quiet) :
    s.logLock = none ∧ ∀ e ∈ s.logged, e ∈ s.log ∨ s.Written e := by
  constructor
  · cases hlock : s.logLock with
    | none => rfl
    | some t =>
        have hheld := (h.exclusive t).mpr hlock
        rw [hquiet t] at hheld
        cases hheld
  · intro e he
    obtain hin | hout | ⟨t, ht⟩ := h.delivered e he
    · exact .inl hin
    · exact .inr hout
    · rw [hquiet t] at ht
      cases ht

/-- After any run in which every failure is harmless: the call of each thread can still
come to its end, and if no call is in progress then the lock is free, and every event
that was recorded is in the log or in a written text. -/
theorem events_kept_of_harmless [DecidableEq T] {s : State T} {ls : List (Label T)}
    (h : Run (Guarded Harmless (Next State.step)) init ls s) :
    (∀ t, ∃ s', Reachable (Guarded Harmless (Next State.step)) s s' ∧ s'.pc t = .idle) ∧
      (s.Quiet → s.logLock = none ∧ ∀ e ∈ s.logged, e ∈ s.log ∨ s.Written e) := by
  have hinv : Invariant s := Invariant.init.of_reachable ⟨ls, h⟩
  exact ⟨hinv.exists_idle, hinv.quiet⟩

/-! ## Runs with failures -/

def recordWake : List (Label Bool) :=
  [.call false (.record (.wakeEvent .acquired (some "bt") none 7)), .run false true,
    .run false true, .run false true]

/-- A call of `metrics_write` or `metrics_print` by the thread `t` with the given outcomes
of its steps. -/
def outputBy (t : Bool) (writer : Writer) (clear : Bool) (outcomes : List Bool) :
    List (Label Bool) :=
  .call t (.output writer clear) :: outcomes.map (.run t)

/-- `metrics_print` fails to write without clearing, `metrics_write` writes the event and
clears the log, and a second one has nothing to lose when its `write` fails. -/
def harmlessFailures : List (Label Bool) :=
  recordWake ++ outputBy true .print false [true, true, true, true, false] ++
    outputBy false .write true [true, true, true, true, true, true] ++
    outputBy true .write true [true, true, true, true, true, false]

theorem events_kept_of_harmless_failures :
    ∃ s, Run (Guarded Harmless (Next State.step)) (init : State Bool) harmlessFailures s ∧
      s.Quiet ∧ s.logLock = none ∧ s.logged.length = 1 ∧
      ∀ e ∈ s.logged, e ∈ s.log ∨ s.Written e := by
  have hend : (exec (fun s l => decide (Harmless s l)) State.step (init : State Bool)
      harmlessFailures).any (fun s => decide ((∀ t, s.pc t = .idle) ∧ s.logged.length = 1)) =
      true := by
    decide +kernel
  obtain ⟨s, hs, hend⟩ := (Option.any_eq_true _ _).mp hend
  obtain ⟨hquiet, hone⟩ := of_decide_eq_true hend
  obtain ⟨hfree, hkept⟩ := (events_kept_of_harmless (Run.of_exec hs)).2 hquiet
  exact ⟨s, Run.of_exec hs, hquiet, hfree, hone, hkept⟩

def failedSerialization : List (Label Bool) :=
  recordWake ++ outputBy true .write false [true, false]

def failedWrite : List (Label Bool) :=
  recordWake ++ outputBy true .write true [true, true, true, true, true, false]

/-- After a failed serialization `log_lock` is held with no call in progress, and after a
failed write of a clearing call an event is neither in the log nor in a written text. -/
theorem events_lost_after_failures :
    (∃ s, Run (Next State.step) (init : State Bool) failedSerialization s ∧ s.Quiet ∧
      s.logLock = some true) ∧
    ∃ s e, Run (Next State.step) (init : State Bool) failedWrite s ∧ s.Quiet ∧
      e ∈ s.logged ∧ ¬ (e ∈ s.log ∨ s.Written e) := by
  constructor
  · have hend : (exec (fun _ _ => true) State.step (init : State Bool)
        failedSerialization).any (fun s => decide ((∀ t, s.pc t = .idle) ∧
          s.logLock = some true)) = true := by
      decide +kernel
    obtain ⟨s, hs, hend⟩ := (Option.any_eq_true _ _).mp hend
    obtain ⟨hquiet, hheld⟩ := of_decide_eq_true hend
    exact ⟨s, Run.of_exec_true hs, hquiet, hheld⟩
  · have hend : (exec (fun _ _ => true) State.step (init : State Bool)
        failedWrite).any (fun s => decide ((∀ t, s.pc t = .idle) ∧
          ∃ e ∈ s.logged, ¬ (e ∈ s.log ∨ s.Written e))) = true := by
      decide +kernel
    obtain ⟨s, hs, hend⟩ := (Option.any_eq_true _ _).mp hend
    obtain ⟨hquiet, e, he, hlost⟩ := of_decide_eq_true hend
    exact ⟨s, e, Run.of_exec_true hs, hquiet, he, hlost⟩

end Metrics

end Osi
