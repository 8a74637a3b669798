import Osi.Thread.Lifetime.Basic

/-!
# One step in the life of a thread

What each step does to the state, and with which guards.
-/

namespace Osi

namespace Thread

namespace Lifetime

open Transition

variable {T α : Type*} [DecidableEq T] [DecidableEq α] {s s' : State T α} {l : Label T α}

inductive Effect (s : State T α) : Label T α → State T α → Prop
  | create (created : Bool) (howner : s.owner = .create) :
      Effect s (.create created)
        { s with owner := .wait, worker := if created then .setName else .absent }
  | setName (named : Bool) (hworker : s.worker = .setName) :
      Effect s (.setName named) { s with worker := if named then .setTid else .reportError }
  | reportError (hworker : s.worker = .reportError) :
      Effect s .worker { s with error := true, worker := .postError }
  | setTid (hworker : s.worker = .setTid) : Effect s .worker { s with worker := .postStarted }
  | post {worker : Worker} (hworker : s.worker = .postError ∧ worker = .failed ∨
      s.worker = .postStarted ∧ worker = .running) :
      Effect s .worker { s with startCount := s.startCount + 1, worker := worker }
  | thread {l : Thread.Label T α} {thread : Thread.State T α} (hworker : s.worker = .running)
      (hbusy : s.busy = true → byItem l = false) (h : s.thread.step l = .ok thread) :
      Effect s (.thread l) { s with thread := thread }
  | join (inItem : Bool) (howner : s.owner = .holding)
      (hitem : inItem = true → executing s.thread.phase = true) :
      Effect s (.join inItem) { s with owner := .readJoined false, inItem := inItem }
  | free (inItem : Bool) (howner : s.owner = .holding)
      (hitem : inItem = true → executing s.thread.phase = true) :
      Effect s (.free inItem) { s with owner := .stop, inItem := inItem }
  | wait (howner : s.owner = .wait) (hcount : s.startCount ≠ 0) :
      Effect s .owner { s with startCount := s.startCount - 1, owner := .freeSem }
  | freeSem (howner : s.owner = .freeSem) :
      Effect s .owner ({ s with owner := .checkError }.release [.startSem])
  | failed (howner : s.owner = .checkError) (herror : s.error = true) :
      Effect s .owner { s with owner := .freeQueue true }
  | started (howner : s.owner = .checkError) (herror : s.error = false) :
      Effect s .owner ({ s with owner := .holding }.release [.start])
  | stop (howner : s.owner = .stop) :
      Effect s .owner { s with
        thread := { s.thread with stopped := true }
        owner := .readJoined true }
  | readSet {freeing : Bool} (howner : s.owner = .readJoined freeing)
      (hset : s.isJoined = true) : Effect s .owner { s with owner := .afterJoin freeing }
  | readClear {freeing : Bool} (howner : s.owner = .readJoined freeing)
      (hclear : s.isJoined = false) :
      Effect s .owner { s with
        isJoined := true
        selfJoined := s.selfJoined || s.inItem
        owner := .joining freeing }
  | joined {freeing : Bool} (howner : s.owner = .joining freeing)
      (hreturned : s.inItem = true ∨ s.thread.phase.hasReturned = true) :
      Effect s .owner { s with owner := .afterJoin freeing }
  | freeQueue {error : Bool} (howner : s.owner = .freeQueue error) :
      Effect s .owner ({ s with
        freed := s.thread.workQueue.list.map SharedQueue.Node.data
        owner := .freeReactor error }.release [.workQueue])
  | freeReactor {error : Bool} (howner : s.owner = .freeReactor error) :
      Effect s .owner ({ s with owner := .freeThread error }.release [.reactor])
  | freeThread {error : Bool} (howner : s.owner = .freeThread error) :
      Effect s .owner ({ s with owner := .returned error }.release [.thread, .start])

omit [DecidableEq T] [DecidableEq α] in
theorem access_eq_ok {objects : List Object} {next : Except Fault (State T α)}
    (h : s.access objects next = .ok s') : (∀ o ∈ objects, s.alive o = true) ∧ next = .ok s' := by
  unfold State.access at h
  split_ifs at h with halive
  exact ⟨halive, h⟩

theorem threadStep_eq_ok {l : Thread.Label T α} (h : s.threadStep l = .ok s') :
    ∃ thread, s.thread.step l = .ok thread ∧ s' = { s with thread := thread } := by
  unfold State.threadStep at h
  split at h
  · rename_i thread hthread
    obtain ⟨-, hnext⟩ := access_eq_ok h
    cases hnext
    exact ⟨thread, hthread, rfl⟩
  · obtain ⟨-, hnext⟩ := access_eq_ok h
    cases hnext
  · obtain ⟨-, hnext⟩ := access_eq_ok h
    cases hnext
  · cases h

theorem effect_of_workerStep (h : s.workerStep = .ok s') : Effect s .worker s' := by
  unfold State.workerStep at h
  split at h
  · rename_i hworker
    obtain ⟨-, hnext⟩ := access_eq_ok h
    cases hnext
    exact .reportError hworker
  · rename_i hworker
    obtain ⟨-, hnext⟩ := access_eq_ok h
    cases hnext
    exact .post (.inl ⟨hworker, rfl⟩)
  · rename_i hworker
    obtain ⟨-, hnext⟩ := access_eq_ok h
    cases hnext
    exact .setTid hworker
  · rename_i hworker
    obtain ⟨-, hnext⟩ := access_eq_ok h
    cases hnext
    exact .post (.inr ⟨hworker, rfl⟩)
  · cases h
  · cases h
  · cases h
  · cases h

theorem effect_of_ownerStep (h : s.ownerStep = .ok s') : Effect s .owner s' := by
  unfold State.ownerStep at h
  split at h
  · rename_i howner
    obtain ⟨-, hnext⟩ := access_eq_ok h
    split_ifs at hnext with hcount
    cases hnext
    exact .wait howner hcount
  · rename_i howner
    obtain ⟨-, hnext⟩ := access_eq_ok h
    cases hnext
    exact .freeSem howner
  · rename_i howner
    obtain ⟨-, hnext⟩ := access_eq_ok h
    split_ifs at hnext with herror
    · cases hnext
      exact .failed howner herror
    · cases hnext
      exact .started howner (Bool.eq_false_iff.mpr herror)
  · rename_i howner
    obtain ⟨-, hnext⟩ := access_eq_ok h
    cases hnext
    exact .stop howner
  · rename_i freeing howner
    obtain ⟨-, hnext⟩ := access_eq_ok h
    split_ifs at hnext with hset
    · cases hnext
      exact .readSet howner hset
    · cases hnext
      exact .readClear howner (Bool.eq_false_iff.mpr hset)
  · rename_i freeing howner
    split_ifs at h with hreturned
    cases h
    exact .joined howner hreturned
  · rename_i error howner
    obtain ⟨-, hnext⟩ := access_eq_ok h
    cases hnext
    exact .freeQueue howner
  · rename_i error howner
    obtain ⟨-, hnext⟩ := access_eq_ok h
    cases hnext
    exact .freeReactor howner
  · rename_i error howner
    obtain ⟨-, hnext⟩ := access_eq_ok h
    cases hnext
    exact .freeThread howner
  · cases h
  · cases h
  · cases h

theorem effect_of_step (h : s.step l = .ok s') : Effect s l s' := by
  cases l with
  | create created =>
      simp only [State.step] at h
      split at h
      · rename_i howner
        cases h
        exact .create created howner
      · cases h
  | setName named =>
      simp only [State.step] at h
      split at h
      · rename_i hworker
        obtain ⟨-, hnext⟩ := access_eq_ok h
        cases hnext
        exact .setName named hworker
      · cases h
  | worker => exact effect_of_workerStep h
  | thread l =>
      simp only [State.step] at h
      split_ifs at h with hrunning
      obtain ⟨thread, hthread, rfl⟩ := threadStep_eq_ok h
      refine .thread hrunning.1 (fun hbusy => ?_) hthread
      exact Bool.eq_false_iff.mpr fun hitem => hrunning.2 ⟨hbusy, hitem⟩
  | join inItem =>
      simp only [State.step] at h
      split_ifs at h with hheld
      cases h
      exact .join inItem hheld.1 hheld.2
  | free inItem =>
      simp only [State.step] at h
      split_ifs at h with hheld
      cases h
      exact .free inItem hheld.1 hheld.2
  | owner => exact effect_of_ownerStep h

end Lifetime

end Thread

end Osi
