import Osi.FixedQueue.Eventfd.Basic

/-!
# The atomic queue and its counters

A step of the atomic queue is a call on one of its two semaphores or a section on its list,
and only the former looks at a counter.
-/

namespace Osi

namespace EventfdQueue

open Transition SharedQueue

section Counter

variable {T α : Type*}

def counter (q : SharedQueue.State T α) : Side → ℕ
  | .enqueue => q.enqueueSem
  | .dequeue => q.dequeueSem

def setCounter (q : SharedQueue.State T α) (n : ℕ) : Side → SharedQueue.State T α
  | .enqueue => { q with enqueueSem := n }
  | .dequeue => { q with dequeueSem := n }

variable [DecidableEq T] [DecidableEq α] {q : SharedQueue.State T α} {t : T} {side : Side}

theorem advance_wait (h : semCall (q.pc t) = some (side, .wait))
    (hcounter : counter q side ≠ 0) :
    q.advance t = .ok ((setCounter q (counter q side - 1) side).goto t
      (afterCall true (q.pc t))) := by
  cases hpc : q.pc t with
  | enqueueWait x =>
      rw [hpc] at h
      cases h
      simp only [SharedQueue.State.advance, hpc]
      exact if_neg hcounter
  | dequeueWait =>
      rw [hpc] at h
      cases h
      simp only [SharedQueue.State.advance, hpc]
      exact if_neg hcounter
  | _ => simp [hpc, semCall] at h

theorem advance_tryWait (h : semCall (q.pc t) = some (side, .tryWait)) :
    q.advance t = .ok (if counter q side = 0 then q.goto t (afterCall false (q.pc t))
      else (setCounter q (counter q side - 1) side).goto t (afterCall true (q.pc t))) := by
  cases hpc : q.pc t with
  | enqueueTryWait x =>
      rw [hpc] at h
      cases h
      simp only [SharedQueue.State.advance, hpc]
      exact (apply_ite Except.ok _ _ _).symm
  | dequeueTryWait =>
      rw [hpc] at h
      cases h
      simp only [SharedQueue.State.advance, hpc]
      exact (apply_ite Except.ok _ _ _).symm
  | removeTryWait x =>
      rw [hpc] at h
      cases h
      simp only [SharedQueue.State.advance, hpc]
      exact (apply_ite Except.ok _ _ _).symm
  | _ => simp [hpc, semCall] at h

theorem advance_post (h : semCall (q.pc t) = some (side, .post)) :
    q.advance t = .ok ((setCounter q (counter q side + 1) side).goto t
      (afterCall true (q.pc t))) := by
  cases hpc : q.pc t with
  | enqueuePost r =>
      rw [hpc] at h
      cases h
      simp only [SharedQueue.State.advance, hpc]
      rfl
  | dequeuePost x =>
      rw [hpc] at h
      cases h
      simp only [SharedQueue.State.advance, hpc]
      rfl
  | removePost x =>
      rw [hpc] at h
      cases h
      simp only [SharedQueue.State.advance, hpc]
      rfl
  | _ => simp [hpc, semCall] at h

/-- What a lock or list step of the thread `t` changes: the list, the lock, the records
and its own program point, whatever the points of the other threads are. -/
def SectionStep (q q' : SharedQueue.State T α) (t : T) : Prop :=
  ∃ list lock appended removed v,
    q' = ⟨list, q.enqueueSem, q.dequeueSem, lock, Function.update q.pc t v,
      appended, removed⟩ ∧
    ∀ pc : T → Pc α, pc t = q.pc t →
      ({ q with pc := pc } : SharedQueue.State T α).advance t =
        .ok ⟨list, q.enqueueSem, q.dequeueSem, lock, Function.update pc t v,
          appended, removed⟩

theorem SectionStep.acquire {q' : SharedQueue.State T α} {w v : Pc α}
    (hw : q.pc t = w) (hq' : q.acquire t v = .ok q')
    (hadvance : ∀ q : SharedQueue.State T α, q.pc t = w → q.advance t = q.acquire t v) :
    SectionStep q q' t := by
  unfold SharedQueue.State.acquire at hq'
  split at hq'
  · rename_i hlock
    cases hq'
    refine ⟨_, _, _, _, v, rfl, ?_⟩
    intro pc ht
    rw [hadvance _ (ht.trans hw)]
    simp only [SharedQueue.State.acquire, hlock]
    rfl
  · cases hq'

theorem advance_section {q' : SharedQueue.State T α} (h : semCall (q.pc t) = none)
    (hq' : q.advance t = .ok q') : SectionStep q q' t := by
  cases hpc : q.pc t with
  | enqueueLock x r =>
      simp only [SharedQueue.State.advance, hpc] at hq'
      exact .acquire hpc hq' fun q hq => by simp only [SharedQueue.State.advance, hq]
  | enqueueAppend x r =>
      simp only [SharedQueue.State.advance, hpc] at hq'
      cases hq'
      refine ⟨_, _, _, _, _, rfl, ?_⟩
      intro pc ht
      simp only [SharedQueue.State.advance, ht, hpc]
      rfl
  | enqueueUnlock r =>
      simp only [SharedQueue.State.advance, hpc] at hq'
      cases hq'
      refine ⟨_, _, _, _, _, rfl, ?_⟩
      intro pc ht
      simp only [SharedQueue.State.advance, ht, hpc]
      rfl
  | dequeueLock =>
      simp only [SharedQueue.State.advance, hpc] at hq'
      exact .acquire hpc hq' fun q hq => by simp only [SharedQueue.State.advance, hq]
  | dequeueRemove =>
      simp only [SharedQueue.State.advance, hpc] at hq'
      split at hq'
      · cases hq'
      · rename_i front rest hlist
        cases hq'
        refine ⟨_, _, _, _, _, rfl, ?_⟩
        intro pc ht
        simp only [SharedQueue.State.advance, ht, hpc, hlist]
        rfl
  | dequeueUnlock x =>
      simp only [SharedQueue.State.advance, hpc] at hq'
      cases hq'
      refine ⟨_, _, _, _, _, rfl, ?_⟩
      intro pc ht
      simp only [SharedQueue.State.advance, ht, hpc]
      rfl
  | removeLock x =>
      simp only [SharedQueue.State.advance, hpc] at hq'
      exact .acquire hpc hq' fun q hq => by simp only [SharedQueue.State.advance, hq]
  | removeContains x =>
      simp only [SharedQueue.State.advance, hpc] at hq'
      split_ifs at hq' with hcontains
      · cases hq'
        refine ⟨_, _, _, _, _, rfl, ?_⟩
        intro pc ht
        simp only [SharedQueue.State.advance, ht, hpc, hcontains, if_true]
        rfl
      · cases hq'
        refine ⟨_, _, _, _, _, rfl, ?_⟩
        intro pc ht
        simp only [SharedQueue.State.advance, ht, hpc, hcontains]
        rfl
  | removeRemove x =>
      simp only [SharedQueue.State.advance, hpc] at hq'
      split at hq'
      · rename_i list hremove
        cases hq'
        refine ⟨_, _, _, _, _, rfl, ?_⟩
        intro pc ht
        simp only [SharedQueue.State.advance, ht, hpc, hremove]
        rfl
      · cases hq'
  | removeUnlock x removed =>
      simp only [SharedQueue.State.advance, hpc] at hq'
      split_ifs at hq' with hremoved
      · cases hq'
        refine ⟨_, _, _, _, _, rfl, ?_⟩
        intro pc ht
        simp only [SharedQueue.State.advance, ht, hpc, hremoved, if_true]
        rfl
      · cases hq'
        refine ⟨_, _, _, _, _, rfl, ?_⟩
        intro pc ht
        simp only [SharedQueue.State.advance, ht, hpc, hremoved]
        rfl
  | idle r =>
      simp only [SharedQueue.State.advance, hpc] at hq'
      cases hq'
  | _ => simp [hpc, semCall] at h

theorem advance_assertion (h : q.advance t = .error .assertion) :
    q.pc t = .dequeueRemove ∧ q.list = [] ∨
      ∃ x, q.pc t = .removeRemove x ∧ listContains q.list x = false := by
  cases hpc : q.pc t with
  | dequeueRemove =>
      simp only [SharedQueue.State.advance, hpc] at h
      split at h
      · rename_i hlist
        exact .inl ⟨rfl, hlist⟩
      · cases h
  | removeRemove x =>
      simp only [SharedQueue.State.advance, hpc] at h
      split at h
      · cases h
      · rename_i hremove
        exact .inr ⟨x, rfl, congrArg Prod.snd hremove⟩
  | _ =>
      simp only [SharedQueue.State.advance, SharedQueue.State.acquire, hpc] at h
      repeat' split at h
      all_goals cases h

end Counter

end EventfdQueue

end Osi
