import Osi.Thread.Lifetime.Release

/-!
# A thread that joins itself

`pthread_join` returns at once to the thread itself, and `thread_free` releases what
`run_thread` still uses.
-/

namespace Osi

namespace Thread

namespace Lifetime

open Transition

variable {T α : Type*} [DecidableEq T] [DecidableEq α] {s s' : State T α} {l : Label T α}
  [Fintype T]

def Owner.left : Owner → ℕ
  | stop => 6
  | readJoined _ => 5
  | joining _ => 4
  | freeQueue _ => 3
  | freeReactor _ => 2
  | freeThread _ => 1
  | _ => 0

omit [DecidableEq T] [DecidableEq α] in
/-- `thread_free` goes on, unless it waits in `pthread_join`. -/
theorem ownerStep_of_freeing (hinv : Invariant s) (hfreeing : s.owner.freeing = true)
    (hjoin : s.thread.phase.hasReturned = true ∨ s.selfJoined = true ∨ s.inItem = true)
    (howner : s.owner ≠ .returned false) :
    ∃ s', s.ownerStep = .ok s' ∧ s'.owner.freeing = true ∧
      (s'.thread.phase.hasReturned = true ∨ s'.selfJoined = true ∨ s'.inItem = true) ∧
      s'.thread.phase = s.thread.phase ∧ s'.owner.left < s.owner.left := by
  have halive := hinv.alive
  cases hphase : s.owner with
  | stop =>
      refine ⟨{ s with
          thread := { s.thread with stopped := true }
          owner := .readJoined true }, ?_, rfl, hjoin, rfl, ?_⟩
      · simp [State.ownerStep, State.access, hphase, halive, Owner.alive]
      · simp [Owner.left]
  | readJoined freeing =>
      cases freeing with
      | false =>
          rw [hphase] at hfreeing
          cases hfreeing
      | true =>
          by_cases hset : s.isJoined = true
          · refine ⟨{ s with owner := .freeQueue false }, ?_, rfl, hjoin, rfl, ?_⟩
            · simp [State.ownerStep, State.access, hphase, halive, Owner.alive, hset,
                Owner.afterJoin]
            · simp [Owner.left]
          · refine ⟨{ s with
                isJoined := true
                selfJoined := s.selfJoined || s.inItem
                owner := .joining true }, ?_, rfl, ?_, rfl, ?_⟩
            · simp [State.ownerStep, State.access, hphase, halive, Owner.alive, hset]
            · exact hjoin.imp_right fun hself => .inl (Bool.or_eq_true_iff.mpr hself)
            · simp [Owner.left]
  | joining freeing =>
      cases freeing with
      | false =>
          rw [hphase] at hfreeing
          cases hfreeing
      | true =>
          have hwoken : s.inItem = true ∨ s.thread.phase.hasReturned = true := by
            rcases hjoin with hreturned | hself | hitem
            · exact .inr hreturned
            · exact .inl ((hinv.joining true hphase).2 ▸ hself)
            · exact .inl hitem
          refine ⟨{ s with owner := .freeQueue false }, ?_, rfl, hjoin, rfl, ?_⟩
          · simp [State.ownerStep, hphase, hwoken, Owner.afterJoin]
          · simp [Owner.left]
  | freeQueue error =>
      cases error with
      | true =>
          rw [hphase] at hfreeing
          cases hfreeing
      | false =>
          refine ⟨({ s with
              freed := s.thread.workQueue.list.map SharedQueue.Node.data
              owner := .freeReactor false } : State T α).release [.workQueue], ?_, rfl, hjoin,
            rfl, ?_⟩
          · simp [State.ownerStep, State.access, hphase, halive, Owner.alive]
          · simp [State.release, Owner.left]
  | freeReactor error =>
      cases error with
      | true =>
          rw [hphase] at hfreeing
          cases hfreeing
      | false =>
          refine ⟨({ s with owner := .freeThread false } : State T α).release [.reactor], ?_, rfl,
            hjoin, rfl, ?_⟩
          · simp [State.ownerStep, State.access, hphase, halive, Owner.alive]
          · simp [State.release, Owner.left]
  | freeThread error =>
      cases error with
      | true =>
          rw [hphase] at hfreeing
          cases hfreeing
      | false =>
          refine ⟨({ s with owner := .returned false } : State T α).release [.thread, .start], ?_,
            rfl, hjoin, rfl, ?_⟩
          · simp [State.ownerStep, State.access, hphase, halive, Owner.alive]
          · simp [State.release, Owner.left]
  | returned error =>
      cases error with
      | true =>
          rw [hphase] at hfreeing
          cases hfreeing
      | false => exact absurd hphase howner
  | _ =>
      rw [hphase] at hfreeing
      cases hfreeing

/-- `thread_free` comes to its end without a step of the thread when `run_thread` has
returned or will not be waited for. -/
theorem free_ends (hinv : Invariant s) (hfreeing : s.owner.freeing = true)
    (hjoin : s.thread.phase.hasReturned = true ∨ s.selfJoined = true ∨ s.inItem = true) :
    ∃ s', Reachable (Guarded Contract (Next State.step)) s s' ∧ Invariant s' ∧
      s'.owner = .returned false ∧ s'.thread.phase = s.thread.phase := by
  induction hleft : s.owner.left using Nat.strong_induction_on generalizing s with
  | _ n ih =>
      by_cases howner : s.owner = .returned false
      · exact ⟨s, .refl s, hinv, howner, rfl⟩
      · obtain ⟨t, hstep, hfreeing', hjoin', hphase, hless⟩ :=
          ownerStep_of_freeing hinv hfreeing hjoin howner
        have hnext : s.step .owner = .ok t := hstep
        have hcontract : Contract s .owner := trivial
        have hinv' : Invariant t := hinv.step hcontract (effect_of_step hnext)
        obtain ⟨s', hreach, hinv'', hend, hphase'⟩ :=
          ih _ (hleft ▸ hless) hinv' hfreeing' hjoin' rfl
        exact ⟨s', ((Reachable.refl s).snoc ⟨hcontract, hnext⟩).trans hreach, hinv'', hend,
          hphase'.trans hphase⟩

omit [Fintype T] in
/-- A thread in the middle of a call on its queue can be told to go on. -/
theorem advance_ne_notEnabled {q : SharedQueue.State (Option T) α} {t : Option T}
    (h : ∀ r, q.pc t ≠ .idle r) : q.advance t ≠ .error .notEnabled := by
  unfold SharedQueue.State.advance SharedQueue.State.acquire
  split
  · rename_i r hpc
    exact absurd hpc (h r)
  all_goals (try split) <;> simp

omit [Fintype T] in
theorem continueCall_ne_notEnabled {t : Thread.State T α}
    (h : ∀ r, t.workQueue.pc none ≠ .idle r) : t.continueCall ≠ .error .notEnabled := by
  have hadvance := advance_ne_notEnabled h
  simp only [Thread.State.continueCall, SharedQueue.State.step]
  cases hq : t.workQueue.advance none with
  | ok q => simp [Except.map]
  | error e =>
      rw [hq] at hadvance
      simpa [Except.map] using hadvance

omit [Fintype T] in
theorem call_eq_ok {t : Thread.State T α} (hidle : (t.workQueue.pc none).isIdle = true)
    (op : SharedQueue.Op α) (phase : Phase α) :
    t.call op phase =
      .ok { t with workQueue := t.workQueue.goto none op.entry, phase := phase } := by
  cases hpc : t.workQueue.pc none with
  | idle r => simp [Thread.State.call, SharedQueue.State.step, hpc, Except.map]
  | _ =>
      rw [hpc] at hidle
      cases hidle

omit [Fintype T] in
theorem call_ne_notEnabled {t : Thread.State T α} {op : SharedQueue.Op α} {phase : Phase α}
    (h : (t.workQueue.pc none).isIdle = true) : t.call op phase ≠ .error .notEnabled := by
  rw [call_eq_ok h]
  simp

theorem exists_use {t : Thread.State T α} (hinv : Thread.Invariant t) (hstopped : t.stopped = true)
    (hrunning : t.phase.hasReturned = false) :
    ∃ l, (l = .wait [.stop] ∨ l = .run ∨ l = .itemReturns) ∧ uses t l ≠ [] ∧
      t.step l ≠ .error .notEnabled := by
  have hworker := hinv.worker
  cases hphase : t.phase with
  | reactor events =>
      rw [hphase] at hworker
      cases events with
      | nil =>
          refine ⟨.wait [.stop], .inl rfl, by simp [uses], ?_⟩
          simp [Thread.State.step, hphase, Thread.State.ready, hstopped]
      | cons event events =>
          refine ⟨.run, .inr (.inl rfl), ?_, ?_⟩
          · cases event <;> simp [uses, hphase]
          · simp only [Thread.State.step, Thread.State.advance, hphase]
            cases event <;> exact call_ne_notEnabled hworker
  | dequeuing events =>
      refine ⟨.run, .inr (.inl rfl), by simp [uses, hphase], ?_⟩
      simp only [Thread.State.step, Thread.State.advance, hphase]
      split
      · simp
      · simp
      · rename_i hidle
        exact continueCall_ne_notEnabled hidle
  | executing item caller =>
      rw [hphase] at hworker
      refine ⟨.itemReturns, .inr (.inr rfl), ?_, ?_⟩
      · cases caller <;> simp [uses, hphase]
      · simp only [Thread.State.step, hphase]
        cases caller with
        | callback events => simp
        | drain count => exact call_ne_notEnabled hworker
  | posting item caller =>
      refine ⟨.run, .inr (.inl rfl), by simp [uses, hphase], ?_⟩
      simp only [Thread.State.step, Thread.State.advance, hphase]
      split
      · simp
      · rename_i hidle
        exact continueCall_ne_notEnabled hidle
  | draining count =>
      refine ⟨.run, .inr (.inl rfl), by simp [uses, hphase], ?_⟩
      simp only [Thread.State.step, Thread.State.advance, hphase]
      split
      · split_ifs <;> simp
      · simp
      · simp
      · rename_i hidle
        exact continueCall_ne_notEnabled hidle
  | returned item =>
      rw [hphase] at hrunning
      cases hrunning

omit [Fintype T] in
theorem threadStep_released {l : Thread.Label T α} (hdead : ∀ o, s.alive o = false)
    (huses : uses s.thread l ≠ []) (hstep : s.thread.step l ≠ .error .notEnabled) :
    s.threadStep l = .error .released := by
  have haccess : ∀ next, s.access (uses s.thread l) next = .error .released := by
    intro next
    obtain ⟨o, ho⟩ := List.exists_mem_of_ne_nil _ huses
    refine if_neg fun halive => ?_
    have := halive o ho
    rw [hdead o] at this
    cases this
  unfold State.threadStep
  split
  · exact haccess _
  · exact haccess _
  · exact haccess _
  · rename_i hnot
    exact absurd hnot hstep

theorem released_of_running (hinv : Invariant s) (howner : s.owner = .returned false)
    (hrunning : s.thread.phase.hasReturned = false) :
    ∃ l, Contract s l ∧ s.step l = .error .released := by
  have hstopped : s.thread.stopped = true :=
    hinv.stopped (by rw [howner]; rfl) (by simp [howner])
  have hworker : s.worker = .running := by
    have hmeets := hinv.meets
    rw [howner] at hmeets
    exact hmeets
  have hdead : ∀ o, s.alive o = false := by
    intro o
    rw [hinv.alive, howner]
    rfl
  have hbusy : s.busy = false := by simp [State.busy, howner, Owner.inCall]
  obtain ⟨l, hl, huses, hstep⟩ := exists_use hinv.thread hstopped hrunning
  refine ⟨.thread l, ?_, ?_⟩
  · rcases hl with rfl | rfl | rfl <;> exact trivial
  · simp only [State.step, hworker, hbusy]
    simpa using threadStep_released hdead huses hstep

omit [Fintype T] in
/-- What stays once `thread_free` is called. -/
theorem secure_step (hfreeing : s.owner.freeing = true)
    (hsecure : s.thread.phase.hasReturned = true ∨ s.selfJoined = false ∧ s.inItem = false)
    (h : Effect s l s') : s'.owner.freeing = true ∧
      (s'.thread.phase.hasReturned = true ∨ s'.selfJoined = false ∧ s'.inItem = false) := by
  cases h with
  | create _ howner => rw [howner] at hfreeing; cases hfreeing
  | setName _ _ => exact ⟨hfreeing, hsecure⟩
  | reportError _ => exact ⟨hfreeing, hsecure⟩
  | setTid _ => exact ⟨hfreeing, hsecure⟩
  | post _ => exact ⟨hfreeing, hsecure⟩
  | thread _ _ hstep =>
      exact ⟨hfreeing, hsecure.imp_left fun h => Join.hasReturned_of_step hstep h⟩
  | join _ howner _ => rw [howner] at hfreeing; cases hfreeing
  | free _ howner _ => rw [howner] at hfreeing; cases hfreeing
  | wait howner _ => rw [howner] at hfreeing; cases hfreeing
  | freeSem howner => rw [howner] at hfreeing; cases hfreeing
  | failed howner _ => rw [howner] at hfreeing; cases hfreeing
  | started howner _ => rw [howner] at hfreeing; cases hfreeing
  | stop _ => exact ⟨rfl, hsecure⟩
  | @readSet freeing howner _ =>
      rw [howner] at hfreeing
      cases freeing <;> first | exact ⟨rfl, hsecure⟩ | cases hfreeing
  | @readClear freeing howner _ =>
      rw [howner] at hfreeing
      refine ⟨by cases freeing <;> exact hfreeing, hsecure.imp_right ?_⟩
      rintro ⟨hself, hitem⟩
      exact ⟨by rw [hself, hitem]; rfl, hitem⟩
  | @joined freeing howner _ =>
      rw [howner] at hfreeing
      cases freeing <;> first | exact ⟨rfl, hsecure⟩ | cases hfreeing
  | @freeQueue error howner =>
      rw [howner] at hfreeing
      cases error <;> first | exact ⟨rfl, hsecure⟩ | cases hfreeing
  | @freeReactor error howner =>
      rw [howner] at hfreeing
      cases error <;> first | exact ⟨rfl, hsecure⟩ | cases hfreeing
  | @freeThread error howner =>
      rw [howner] at hfreeing
      cases error <;> first | exact ⟨rfl, hsecure⟩ | cases hfreeing

/-- Once `thread_free` is called, nothing that is released will be used, in whatever order
the steps are taken, exactly if `run_thread` has already returned, or neither this
`thread_free` nor a `thread_join` before it was called by an item of the thread. -/
theorem thread_free_safe_iff {capacity : UInt64}
    (h : Reachable (Guarded Contract (Next State.step)) (start capacity) s)
    (hfreeing : s.owner.freeing = true) :
    (∀ s' l, Reachable (Guarded Contract (Next State.step)) s s' → Contract s' l →
        s'.step l ≠ .error .released) ↔
      s.thread.phase.hasReturned = true ∨ s.selfJoined = false ∧ s.inItem = false := by
  have hinv := invariant_of_reachable h
  constructor
  · intro hsafe
    by_contra hunsafe
    obtain ⟨hrunning, hself⟩ := not_or.mp hunsafe
    have hjoin : s.selfJoined = true ∨ s.inItem = true := by
      by_contra hnone
      obtain ⟨hself', hitem⟩ := not_or.mp hnone
      exact hself ⟨Bool.eq_false_iff.mpr hself', Bool.eq_false_iff.mpr hitem⟩
    obtain ⟨s', hreach, hinv', howner, hphase⟩ := free_ends hinv hfreeing (.inr hjoin)
    obtain ⟨l, hcontract, hreleased⟩ :=
      released_of_running hinv' howner (by rw [hphase]; exact Bool.eq_false_iff.mpr hrunning)
    exact hsafe s' l hreach hcontract hreleased
  · intro hsecure s' l hreach hcontract
    have hend : Invariant s' ∧ s'.owner.freeing = true ∧
        (s'.thread.phase.hasReturned = true ∨ s'.selfJoined = false ∧ s'.inItem = false) := by
      refine hreach.invariant (I := fun s => Invariant s ∧ s.owner.freeing = true ∧
        (s.thread.phase.hasReturned = true ∨ s.selfJoined = false ∧ s.inItem = false)) ?_
        ⟨hinv, hfreeing, hsecure⟩
      rintro s l s' ⟨hinv, hfreeing, hsecure⟩ ⟨hcontract, hnext⟩
      have heffect := effect_of_step hnext
      exact ⟨hinv.step hcontract heffect, secure_step hfreeing hsecure heffect⟩
    obtain ⟨hinv', -, hsecure'⟩ := hend
    refine step_ne_released hinv' hcontract fun hpast => ?_
    rcases hsecure' with hreturned | ⟨hself, -⟩
    · exact hreturned
    · exact hinv'.returned_of_past hself hpast

def freedByItem : List (Label Unit ℕ) :=
  List.flatten [[.create true, .setName true, .worker, .worker, .owner, .owner, .owner,
    .thread (.post () 1)], .replicate 5 (.thread (.client ())),
    [.thread (.wait [.workQueue])], .replicate 7 (.thread .run), [.free true]]

theorem thread_free_safe_iff_freedByItem :
    ∃ s : State Unit ℕ, s.owner = .stop ∧ s.inItem = true ∧
      ¬ ∀ s' l, Reachable (Guarded Contract (Next State.step)) s s' → Contract s' l →
        s'.step l ≠ .error .released := by
  have hend : ((exec (fun s l => decide (Contract s l)) State.step (start 2)
      freedByItem).any fun s =>
      decide (s.owner = .stop ∧ s.inItem = true ∧ s.thread.phase.hasReturned = false)) = true := by
    decide +kernel
  obtain ⟨s, hs, hend⟩ := (Option.any_eq_true _ _).mp hend
  obtain ⟨howner, hitem, hrunning⟩ := of_decide_eq_true hend
  refine ⟨s, howner, hitem, fun hsafe => ?_⟩
  rcases (thread_free_safe_iff (Reachable.of_exec hs) (by rw [howner]; rfl)).mp hsafe with
    hreturned | ⟨-, hnot⟩
  · rw [hrunning] at hreturned
    cases hreturned
  · rw [hitem] at hnot
    cases hnot

end Lifetime

end Thread

end Osi
