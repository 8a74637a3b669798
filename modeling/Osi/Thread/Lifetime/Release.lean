import Osi.Thread.Lifetime.Preservation

/-!
# A thread that does not join itself

No step uses what is released, as long as the thread has returned when `pthread_join` has;
and what `thread_free` leaves in the queue is what the last loop did not come to.
-/

namespace Osi

namespace Thread

namespace Lifetime

open Transition

variable {T α : Type*} [DecidableEq T] [DecidableEq α] {s s' : State T α} {l : Label T α}
  [Fintype T]

omit [DecidableEq T] [DecidableEq α] [Fintype T] in
theorem access_ne_released {objects : List Object} {next : Except Fault (State T α)}
    (halive : ∀ o ∈ objects, s.alive o = true) (hnext : next ≠ .error .released) :
    s.access objects next ≠ .error .released := by
  rw [State.access, if_pos halive]
  exact hnext

omit [DecidableEq T] [DecidableEq α] [Fintype T] in
/-- The thread and its clients use neither the semaphore nor the `start_arg`. -/
theorem ne_start_of_uses {t : Thread.State T α} {l : Thread.Label T α} {o : Object}
    (h : o ∈ uses t l) : o ≠ .start ∧ o ≠ .startSem := by
  constructor <;> rintro rfl <;> revert h <;> unfold uses <;> cases l <;> dsimp only <;>
    (try split) <;> simp

theorem Owner.Meets.alive {count : ℕ} {owner : Owner} (h : owner.Meets .running count)
    (hpast : owner.isPastJoin = false) {o : Object} (hstart : o ≠ .start)
    (hsem : o ≠ .startSem) : owner.alive o = true := by
  cases owner with
  | create => cases h.1
  | freeQueue error =>
      cases error with
      | false => cases hpast
      | true => cases h
  | freeReactor error =>
      cases error with
      | false => cases hpast
      | true => cases h
  | freeThread error =>
      cases error with
      | false => cases hpast
      | true => cases h
  | returned error =>
      cases error with
      | false => cases hpast
      | true => cases h
  | _ => cases o <;> first | rfl | exact absurd rfl hstart | exact absurd rfl hsem

theorem Owner.freeing_of_isPastJoin {owner : Owner} (h : owner.isPastJoin = true) :
    owner.freeing = true := by
  cases owner with
  | freeQueue error => cases error <;> first | rfl | cases h
  | freeReactor error => cases error <;> first | rfl | cases h
  | freeThread error => cases error <;> first | rfl | cases h
  | returned error => cases error <;> first | rfl | cases h
  | _ => cases h

omit [Fintype T] in
/-- When `run_thread` has returned and the clients do nothing, only a new call of a client
could use the thread. -/
theorem step_notEnabled {t : Thread.State T α} {l : Thread.Label T α}
    (hreturned : t.phase.hasReturned = true)
    (hidle : ∀ u, (t.workQueue.pc (some u)).isIdle = true)
    (hpost : ∀ u item, l ≠ .post u item) (hstop : ∀ u, l ≠ .stop u) :
    t.step l = .error .notEnabled := by
  cases hphase : t.phase with
  | returned item =>
      cases l with
      | post u item => exact absurd rfl (hpost u item)
      | stop u => exact absurd rfl (hstop u)
      | client u =>
          have hidle := hidle u
          cases hpc : t.workQueue.pc (some u) with
          | idle r =>
              simp [Thread.State.step, SharedQueue.State.step, SharedQueue.State.advance, hpc,
                Except.map]
          | _ =>
              rw [hpc] at hidle
              cases hidle
      | _ => simp [Thread.State.step, Thread.State.advance, hphase]
  | _ =>
      rw [hphase] at hreturned
      cases hreturned

omit [DecidableEq T] [DecidableEq α] in
theorem workerStep_ne_released (hinv : Invariant s) : s.workerStep ≠ .error .released := by
  have haccess : s.worker.hasPosted = false → s.worker ≠ .absent →
      ∀ objects (next : Except Fault (State T α)), next ≠ .error .released →
        s.access objects next ≠ .error .released := by
    intro hposted habsent objects next hnext
    refine access_ne_released (fun o _ => ?_) hnext
    rw [hinv.alive, (hinv.meets.wait hposted habsent).1]
    rfl
  unfold State.workerStep
  split
  · rename_i hworker
    exact haccess (by rw [hworker]; rfl) (by simp [hworker]) _ _ (by simp)
  · rename_i hworker
    exact haccess (by rw [hworker]; rfl) (by simp [hworker]) _ _ (by simp)
  · rename_i hworker
    exact haccess (by rw [hworker]; rfl) (by simp [hworker]) _ _ (by simp)
  · rename_i hworker
    exact haccess (by rw [hworker]; rfl) (by simp [hworker]) _ _ (by simp)
  all_goals simp

omit [DecidableEq T] [DecidableEq α] in
theorem ownerStep_ne_released (hinv : Invariant s) : s.ownerStep ≠ .error .released := by
  have halive := hinv.alive
  unfold State.ownerStep
  split
  · rename_i howner
    refine access_ne_released (fun o _ => by rw [halive, howner]; rfl) ?_
    split_ifs <;> simp
  · rename_i howner
    exact access_ne_released (fun o _ => by rw [halive, howner]; rfl) (by simp)
  · rename_i howner
    refine access_ne_released (fun o ho => ?_) (by split_ifs <;> simp)
    obtain rfl := List.mem_singleton.mp ho
    rw [halive, howner]
    rfl
  · rename_i howner
    refine access_ne_released ?_ (by simp)
    simp [halive, howner, Owner.alive]
  · rename_i freeing howner
    refine access_ne_released ?_ (by split_ifs <;> simp)
    simp [halive, howner, Owner.alive]
  · split_ifs <;> simp
  · rename_i error howner
    refine access_ne_released ?_ (by simp)
    simp [halive, howner, Owner.alive]
  · rename_i error howner
    refine access_ne_released ?_ (by simp)
    simp [halive, howner, Owner.alive]
  · rename_i error howner
    refine access_ne_released ?_ (by simp)
    simp [halive, howner, Owner.alive]
  all_goals simp

/-- The thread and its clients have what they use, unless the thread was joined and runs
on. -/
theorem threadStep_ne_released {l : Thread.Label T α} (hinv : Invariant s)
    (hworker : s.worker = .running) (hcontract : Contract s (.thread l))
    (hpast : s.owner.isPastJoin = true → s.thread.phase.hasReturned = true) :
    s.threadStep l ≠ .error .released := by
  by_cases hjoined : s.owner.isPastJoin = true
  · have hfreeing := Owner.freeing_of_isPastJoin hjoined
    obtain ⟨hpost, hstop⟩ := no_call_of_freeing hcontract hfreeing
    have hstep : s.thread.step l = .error .notEnabled :=
      step_notEnabled (hpast hjoined) (hinv.idle hfreeing) hpost hstop
    simp [State.threadStep, hstep]
  · have hmeets := hinv.meets
    rw [hworker] at hmeets
    have halive : ∀ o ∈ uses s.thread l, s.alive o = true := by
      intro o ho
      obtain ⟨hstart, hsem⟩ := ne_start_of_uses ho
      rw [hinv.alive]
      exact hmeets.alive (Bool.eq_false_iff.mpr hjoined) hstart hsem
    unfold State.threadStep
    split
    · exact access_ne_released halive (by simp)
    · exact access_ne_released halive (by simp)
    · exact access_ne_released halive (by simp)
    · simp

theorem step_ne_released (hinv : Invariant s) (hcontract : Contract s l)
    (hpast : s.owner.isPastJoin = true → s.thread.phase.hasReturned = true) :
    s.step l ≠ .error .released := by
  cases l with
  | setName named =>
      simp only [State.step]
      split
      · rename_i hworker
        obtain ⟨howner, -⟩ := hinv.meets.wait (by rw [hworker]; rfl) (by simp [hworker])
        refine access_ne_released (fun o _ => ?_) (by simp)
        rw [hinv.alive, howner]
        rfl
      · simp
  | worker => exact workerStep_ne_released hinv
  | thread l =>
      simp only [State.step]
      split
      · rename_i hrunning
        exact threadStep_ne_released hinv hrunning.1 hcontract hpast
      · simp
  | owner => exact ownerStep_ne_released hinv
  | _ =>
      simp only [State.step]
      split <;> simp

/-! ### A thread that does not join itself -/

omit [DecidableEq T] [DecidableEq α] in
theorem Invariant.returned_of_past (hinv : Invariant s) (hself : s.selfJoined = false)
    (hpast : s.owner.isPastJoin = true) : s.thread.phase.hasReturned = true := by
  refine hinv.joined hself (hinv.past hpast) ?_
  intro freeing howner
  rw [howner] at hpast
  cases hpast

def Owner.hasFreed : Owner → Bool
  | freeReactor false | freeThread false | returned false => true
  | _ => false

theorem Owner.isPastJoin_of_hasFreed {owner : Owner} (h : owner.hasFreed = true) :
    owner.isPastJoin = true := by
  cases owner with
  | freeReactor error => cases error <;> first | rfl | cases h
  | freeThread error => cases error <;> first | rfl | cases h
  | returned error => cases error <;> first | rfl | cases h
  | _ => cases h

def Freed (s : State T α) : Prop :=
  s.selfJoined = false → s.owner.hasFreed = true →
    s.freed = s.thread.workQueue.list.map SharedQueue.Node.data

theorem Freed.step (hfreed : Freed s) (hinv : Invariant s) (hcontract : Contract s l)
    (h : Effect s l s') : Freed s' := by
  intro hself hhas
  cases h with
  | thread _ _ hstep =>
      -- the joined thread and the idle clients take no step
      have hpast := Owner.isPastJoin_of_hasFreed hhas
      have hfreeing := Owner.freeing_of_isPastJoin hpast
      obtain ⟨hpost, hstop⟩ := no_call_of_freeing hcontract hfreeing
      rw [step_notEnabled (hinv.returned_of_past hself hpast) (hinv.idle hfreeing) hpost hstop]
        at hstep
      cases hstep
  | freeQueue _ => rfl
  | @freeReactor error howner =>
      refine hfreed hself ?_
      rw [howner]
      cases error <;> exact hhas
  | @freeThread error howner =>
      refine hfreed hself ?_
      rw [howner]
      cases error <;> exact hhas
  | setName _ _ => exact hfreed hself hhas
  | reportError _ => exact hfreed hself hhas
  | setTid _ => exact hfreed hself hhas
  | post _ => exact hfreed hself hhas
  | @readSet freeing _ _ => cases freeing <;> cases hhas
  | @joined freeing _ _ => cases freeing <;> cases hhas
  | _ => cases hhas

theorem freed_of_reachable {capacity : UInt64}
    (h : Reachable (Guarded Contract (Next State.step)) (start capacity) s) :
    Invariant s ∧ Freed s := by
  refine h.invariant (I := fun s => Invariant s ∧ Freed s) ?_ ⟨invariant_start capacity, ?_⟩
  · rintro s l s' ⟨hinv, hfreed⟩ ⟨hcontract, hnext⟩
    have heffect := effect_of_step hnext
    exact ⟨hinv.step hcontract heffect, hfreed.step hinv hcontract heffect⟩
  · intro _ hhas
    cases hhas

/-- Every run in which no item of the thread joins or frees it: nothing is used that is
released. When `thread_new_sized` returns `NULL` it has released all, and `run_thread` has
returned; when `thread_free` returns it has released all, `run_thread` has returned, and
each item that came into the queue was executed, is the one that the last loop dropped, or
was freed with the queue, in this order. -/
theorem thread_lifetime_safe {capacity : UInt64}
    (h : Reachable (Guarded Contract (Next State.step)) (start capacity) s)
    (hself : s.selfJoined = false) :
    (∀ l, Contract s l → s.step l ≠ .error .released) ∧
      (s.owner = .returned true → s.worker = .failed ∧ ∀ o, s.alive o = false) ∧
      (s.owner = .returned false → (∀ o, s.alive o = false) ∧
        ∃ last, s.thread.phase = .returned last ∧
          s.thread.workQueue.appended = s.thread.finished ++ last.toList ++ s.freed) := by
  obtain ⟨hinv, hfreed⟩ := freed_of_reachable h
  have halive : ∀ error, s.owner = .returned error → ∀ o, s.alive o = false := by
    intro error howner o
    rw [hinv.alive, howner]
    rfl
  refine ⟨fun l hcontract => step_ne_released hinv hcontract (hinv.returned_of_past hself),
    fun howner => ⟨?_, halive _ howner⟩, fun howner => ⟨halive _ howner, ?_⟩⟩
  · have hmeets := hinv.meets
    rw [howner] at hmeets
    exact hmeets
  · have hreturned := hinv.returned_of_past hself (by rw [howner]; rfl)
    cases hphase : s.thread.phase with
    | returned last =>
        refine ⟨last, rfl, ?_⟩
        have hinHand : s.thread.inHand = last.toList := by
          unfold Thread.State.inHand
          rw [hphase]
        rw [hinv.thread.fifo, hinv.thread.removed, hinHand,
          hfreed hself (by rw [howner]; rfl)]
    | _ =>
        rw [hphase] at hreturned
        cases hreturned

/-- Two items are posted before the stop and two by items of the last loop, which drops the
last one. -/
def freedAfterDrop : List (Label Unit ℕ) :=
  List.flatten [[.create true, .setName true, .worker, .worker, .owner, .owner, .owner],
    postWhileDraining.map .thread, [.free false], .replicate 6 .owner]

theorem thread_lifetime_safe_droppedItem :
    ∃ s : State Unit ℕ, s.owner = .returned false ∧ (∀ o, s.alive o = false) ∧
      ∃ last, s.thread.phase = .returned last ∧ last = some 4 ∧
        s.thread.workQueue.appended = s.thread.finished ++ last.toList ++ s.freed := by
  have hend : ((exec (fun s l => decide (Contract s l)) State.step (start 2)
      freedAfterDrop).any fun s =>
      decide (s.owner = .returned false ∧ s.selfJoined = false ∧
        s.thread.phase = .returned (some 4))) = true := by
    decide +kernel
  obtain ⟨s, hs, hend⟩ := (Option.any_eq_true _ _).mp hend
  obtain ⟨howner, hself, hphase⟩ := of_decide_eq_true hend
  obtain ⟨-, -, hfreed⟩ := thread_lifetime_safe (Reachable.of_exec hs) hself
  obtain ⟨hdead, last, hlast, happended⟩ := hfreed howner
  rw [hphase] at hlast
  cases hlast
  exact ⟨s, howner, hdead, some 4, hphase, rfl, happended⟩

end Lifetime

end Thread

end Osi
