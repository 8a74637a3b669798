import Osi.FixedQueue.Order
import Osi.Thread.Basic
import Mathlib.Data.Fintype.Option

/-!
# The steps of a thread

What each step does to the queue, to the phase of the thread and to the records of what
was stopped and executed.
-/

namespace Osi

namespace Thread

open Transition
open SharedQueue (Fault Pc)

variable {T α : Type*} [DecidableEq T] [DecidableEq α] {s s' : State T α}

inductive Effect (s : State T α) (l : Label T α) : State T α → Prop
  | client {q : SharedQueue.State (Option T) α} (t : T)
      (h : (∃ item, l = .post t item ∧
          s.workQueue.step (.call (some t) (.enqueue item)) = .ok q) ∨
        s.workQueue.step (.run (some t)) = .ok q) :
      Effect s l { s with workQueue := q }
  | stop (h : (∃ t, l = .stop t) ∨ l = .itemStops) : Effect s l { s with stopped := true }
  | wait {events : List Event} (hphase : s.phase = .reactor [])
      (hready : ∀ e ∈ events, s.ready e = true) : Effect s l { s with phase := .reactor events }
  | enqueue {q : SharedQueue.State (Option T) α} {item : α} {caller : Caller}
      (hphase : s.phase = .posting item caller) (h : s.workQueue.step (.run none) = .ok q) :
      Effect s l { s with workQueue := q }
  | dequeue {q : SharedQueue.State (Option T) α}
      (hphase : (∃ events, s.phase = .dequeuing events) ∨ ∃ count, s.phase = .draining count)
      (h : s.workQueue.step (.run none) = .ok q) : Effect s l { s with workQueue := q }
  | callback {events : List Event} (hphase : s.phase = .reactor (.workQueue :: events)) :
      Effect s l
        { s with
          workQueue := s.workQueue.goto none .dequeueWait
          phase := .dequeuing events }
  | returnFromReactor {events : List Event} (hphase : s.phase = .reactor (.stop :: events)) :
      Effect s l
        { s with
          workQueue := s.workQueue.goto none .dequeueTryWait
          phase := .draining 0
          atReturn := some (s.finished, s.workQueue.list.map SharedQueue.Node.data) }
  | execute {events : List Event} {item : α} (hphase : s.phase = .dequeuing events)
      (hpc : s.workQueue.pc none = .idle (.data (some item))) :
      Effect s l { s with phase := .executing item (.callback events) }
  | posted {item : α} {caller : Caller} (hphase : s.phase = .posting item caller)
      (hpc : (s.workQueue.pc none).isIdle = true) :
      Effect s l { s with phase := .executing item caller }
  | drain {count : UInt64} {item : α} (hphase : s.phase = .draining count)
      (hpc : s.workQueue.pc none = .idle (.data (some item))) (hcount : count ≤ s.capacity) :
      Effect s l { s with phase := .executing item (.drain count) }
  | giveUp {count : UInt64} {item : α} (hphase : s.phase = .draining count)
      (hpc : s.workQueue.pc none = .idle (.data (some item))) (hcount : ¬ count ≤ s.capacity) :
      Effect s l { s with phase := .returned (some item) }
  | empty {count : UInt64} (hphase : s.phase = .draining count)
      (hpc : s.workQueue.pc none = .idle (.data none)) :
      Effect s l { s with phase := .returned none }
  | itemPosts {current item : α} {caller : Caller} (hphase : s.phase = .executing current caller) :
      Effect s l
        { s with
          workQueue := s.workQueue.goto none (.enqueueWait item)
          phase := .posting current caller }
  | itemReturns {events : List Event} {item : α}
      (hphase : s.phase = .executing item (.callback events)) :
      Effect s l { s with phase := .reactor events, finished := s.finished ++ [item] }
  | itemReturnsDrain {count : UInt64} {item : α}
      (hphase : s.phase = .executing item (.drain count)) :
      Effect s l
        { s with
          workQueue := s.workQueue.goto none .dequeueTryWait
          phase := .draining (count + 1)
          finished := s.finished ++ [item]
          drained := s.drained + 1 }

theorem map_eq_ok {ε β γ : Type*} {x : Except ε β} {f : β → γ} {c : γ}
    (h : x.map f = .ok c) : ∃ b, x = .ok b ∧ f b = c := by
  cases x with
  | error e => cases h
  | ok b => exact ⟨b, rfl, Except.ok.inj h⟩

theorem State.call_eq {op : SharedQueue.Op α} {phase : Phase α}
    (h : s.call op phase = .ok s') :
    s' = { s with workQueue := s.workQueue.goto none op.entry, phase := phase } := by
  obtain ⟨q, hq, rfl⟩ := map_eq_ok h
  rw [(SharedQueue.step_call hq).2]

theorem effect_of_advance {l : Label T α} (h : s.advance = .ok s') : Effect s l s' := by
  unfold State.advance at h
  split at h
  · cases h
  · rename_i events hphase
    rw [State.call_eq h]
    exact .callback hphase
  · rename_i events hphase
    rw [State.call_eq h]
    exact .returnFromReactor hphase
  · rename_i events hphase
    split at h
    · rename_i item hpc
      cases h
      exact .execute hphase hpc
    · cases h
    · obtain ⟨q, hq, rfl⟩ := map_eq_ok h
      exact .dequeue (.inl ⟨events, hphase⟩) hq
  · rename_i item caller hphase
    split at h
    · rename_i r hpc
      cases h
      exact .posted hphase (by rw [hpc]; rfl)
    · obtain ⟨q, hq, rfl⟩ := map_eq_ok h
      exact .enqueue hphase hq
  · rename_i count hphase
    split at h
    · rename_i item hpc
      split_ifs at h with hcount
      · cases h
        exact .drain hphase hpc hcount
      · cases h
        exact .giveUp hphase hpc hcount
    · rename_i hpc
      cases h
      exact .empty hphase hpc
    · cases h
    · obtain ⟨q, hq, rfl⟩ := map_eq_ok h
      exact .dequeue (.inr ⟨count, hphase⟩) hq
  · cases h
  · cases h

theorem effect_of_step {l : Label T α} (h : s.step l = .ok s') : Effect s l s' := by
  cases l with
  | post t item =>
    obtain ⟨q, hq, rfl⟩ := map_eq_ok h
    exact .client t (.inl ⟨item, rfl, hq⟩)
  | client t =>
    obtain ⟨q, hq, rfl⟩ := map_eq_ok h
    exact .client t (.inr hq)
  | stop t =>
    simp only [State.step] at h
    split at h
    · cases h
      exact .stop (.inl ⟨t, rfl⟩)
    · cases h
  | wait events =>
    simp only [State.step] at h
    split at h
    · rename_i hphase
      split_ifs at h with hready
      cases h
      exact .wait hphase hready.2.2
    · cases h
  | run => exact effect_of_advance h
  | itemPosts item =>
    simp only [State.step] at h
    split at h
    · rename_i current caller hphase
      rw [State.call_eq h]
      exact .itemPosts hphase
    · cases h
  | itemStops =>
    simp only [State.step] at h
    split at h
    · cases h
      exact .stop (.inr rfl)
    · cases h
  | itemReturns =>
    simp only [State.step] at h
    split at h
    · rename_i item events hphase
      cases h
      exact .itemReturns hphase
    · rename_i item count hphase
      rw [State.call_eq h]
      exact .itemReturnsDrain hphase
    · cases h

end Thread

end Osi
