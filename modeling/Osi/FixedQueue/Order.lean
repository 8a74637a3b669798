import Osi.FixedQueue.Interleaving.Runs

/-!
# First in, first out

A queue from which elements are taken at the front only: what was appended is what
was removed, followed by what is in the list. A thread that only enqueues or only
dequeues stays among the program points of these calls, and what it has taken from
the list and not yet worked on is read off from where it is.
-/

namespace Osi

namespace SharedQueue

open Transition

variable {T α : Type*}

def Fifo (s : State T α) : Prop := s.appended = s.removed ++ s.list.map Node.data

namespace Pc

def enqueues : Pc α → Bool
  | idle _ | enqueueWait _ | enqueueLock _ _ | enqueueAppend _ _ | enqueueUnlock _
  | enqueuePost _ => true
  | _ => false

def dequeues : Pc α → Bool
  | idle _ | dequeueWait | dequeueTryWait | dequeueLock | dequeueRemove | dequeueUnlock _
  | dequeuePost _ => true
  | _ => false

def taken : Pc α → List α
  | dequeueUnlock x | dequeuePost x | idle (.data (some x)) => [x]
  | _ => []

def isIdle : Pc α → Bool
  | idle _ => true
  | _ => false

end Pc

section Step

variable [DecidableEq T] [DecidableEq α] {s s' : State T α} {t : T} {v : Pc α}

omit [DecidableEq α] in
@[simp] theorem goto_pc_self (s : State T α) (t : T) (v : Pc α) : (s.goto t v).pc t = v :=
  Function.update_self ..

omit [DecidableEq α] in
theorem goto_pc_of_ne (s : State T α) {t u : T} (hne : u ≠ t) (v : Pc α) :
    (s.goto t v).pc u = s.pc u :=
  Function.update_of_ne hne _ _

omit [DecidableEq α] in
@[simp] theorem release_pc_self (s : State T α) (t : T) (v : Pc α) : (s.release t v).pc t = v :=
  Function.update_self ..

omit [DecidableEq α] in
theorem pc_of_acquire (h : s.acquire t v = .ok s') :
    s'.pc t = v ∧ s'.list = s.list ∧ s'.appended = s.appended ∧ s'.removed = s.removed ∧
      s'.dequeueSem = s.dequeueSem := by
  unfold State.acquire at h
  split at h
  · cases h
    exact ⟨Function.update_self .., rfl, rfl, rfl, rfl⟩
  · cases h

theorem advance_enqueues (hpc : (s.pc t).enqueues = true) (h : s.advance t = .ok s') :
    (s'.pc t).enqueues = true ∧ s'.removed = s.removed ∧
      (s'.list = s.list ∧ s'.appended = s.appended ∨
        ∃ x, s'.list = s.list ++ [⟨s.appended.length, x⟩] ∧
          s'.appended = s.appended ++ [x]) := by
  cases hv : s.pc t with
  | idle r => simp [State.advance, hv] at h
  | enqueueWait x =>
    simp only [State.advance, hv] at h
    split_ifs at h
    cases h
    exact ⟨by rw [goto_pc_self]; rfl, rfl, .inl ⟨rfl, rfl⟩⟩
  | enqueueLock x r =>
    simp only [State.advance, hv] at h
    obtain ⟨hpc', hlist, happended, hremoved, -⟩ := pc_of_acquire h
    exact ⟨by rw [hpc']; rfl, hremoved, .inl ⟨hlist, happended⟩⟩
  | enqueueAppend x r =>
    simp only [State.advance, hv] at h
    cases h
    exact ⟨by rw [goto_pc_self]; rfl, rfl, .inr ⟨x, rfl, rfl⟩⟩
  | enqueueUnlock r =>
    simp only [State.advance, hv] at h
    cases h
    exact ⟨by rw [release_pc_self]; rfl, rfl, .inl ⟨rfl, rfl⟩⟩
  | enqueuePost r =>
    simp only [State.advance, hv] at h
    cases h
    exact ⟨by rw [goto_pc_self]; rfl, rfl, .inl ⟨rfl, rfl⟩⟩
  | _ =>
    rw [hv] at hpc
    cases hpc

/-- What a step of a dequeuer does: it takes the front out of the list, finds that
there is none to take, or goes on with what it has. -/
theorem advance_dequeues (hpc : (s.pc t).dequeues = true) (h : s.advance t = .ok s') :
    (s'.pc t).dequeues = true ∧ s'.appended = s.appended ∧
      ((∃ front rest, s.list = front :: rest ∧ s'.list = rest ∧
          s'.removed = s.removed ++ [front.data] ∧ (s.pc t).taken = [] ∧
          (s'.pc t).taken = [front.data]) ∨
        (s'.list = s.list ∧ s'.removed = s.removed ∧ (s.pc t).taken = [] ∧
          s.pc t = .dequeueTryWait ∧ s.dequeueSem = 0 ∧ s'.pc t = .idle (.data none)) ∨
        (s'.list = s.list ∧ s'.removed = s.removed ∧ (s'.pc t).taken = (s.pc t).taken ∧
          s'.pc t ≠ .idle (.data none))) := by
  cases hv : s.pc t with
  | idle r => simp [State.advance, hv] at h
  | dequeueWait =>
    simp only [State.advance, hv] at h
    split_ifs at h
    cases h
    rw [goto_pc_self]
    exact ⟨rfl, rfl, .inr (.inr ⟨rfl, rfl, rfl, by simp⟩)⟩
  | dequeueTryWait =>
    simp only [State.advance, hv] at h
    split_ifs at h with hsem
    · cases h
      rw [goto_pc_self]
      exact ⟨rfl, rfl, .inr (.inl ⟨rfl, rfl, rfl, rfl, hsem, rfl⟩)⟩
    · cases h
      rw [goto_pc_self]
      exact ⟨rfl, rfl, .inr (.inr ⟨rfl, rfl, rfl, by simp⟩)⟩
  | dequeueLock =>
    simp only [State.advance, hv] at h
    obtain ⟨hpc', hlist, happended, hremoved, -⟩ := pc_of_acquire h
    rw [hpc']
    exact ⟨rfl, happended, .inr (.inr ⟨hlist, hremoved, rfl, by simp⟩)⟩
  | dequeueRemove =>
    simp only [State.advance, hv] at h
    cases hlist : s.list with
    | nil => simp [hlist] at h
    | cons front rest =>
      simp only [hlist, Except.ok.injEq] at h
      rw [← h, goto_pc_self]
      exact ⟨rfl, rfl, .inl ⟨front, rest, rfl, listRemove_front front rest, rfl, rfl, rfl⟩⟩
  | dequeueUnlock x =>
    simp only [State.advance, hv] at h
    cases h
    rw [release_pc_self]
    exact ⟨rfl, rfl, .inr (.inr ⟨rfl, rfl, rfl, by simp⟩)⟩
  | dequeuePost x =>
    simp only [State.advance, hv] at h
    cases h
    rw [goto_pc_self]
    exact ⟨rfl, rfl, .inr (.inr ⟨rfl, rfl, rfl, by simp⟩)⟩
  | _ =>
    rw [hv] at hpc
    cases hpc

theorem step_call {op : Op α} (h : s.step (.call t op) = .ok s') :
    (s.pc t).isIdle = true ∧ s' = s.goto t op.entry := by
  cases hv : s.pc t with
  | idle r =>
    simp only [State.step, hv] at h
    cases h
    exact ⟨rfl, rfl⟩
  | _ => simp [State.step, hv] at h

theorem Fifo.advance_enqueues (hfifo : Fifo s) (hpc : (s.pc t).enqueues = true)
    (h : s.advance t = .ok s') : Fifo s' := by
  obtain ⟨-, hremoved, ⟨hlist, happended⟩ | ⟨x, hlist, happended⟩⟩ :=
    SharedQueue.advance_enqueues hpc h
  · rw [Fifo, hlist, happended, hremoved]
    exact hfifo
  · rw [Fifo, hlist, happended, hremoved, List.map_append, ← List.append_assoc, ← hfifo]
    rfl

theorem Fifo.advance_dequeues (hfifo : Fifo s) (hpc : (s.pc t).dequeues = true)
    (h : s.advance t = .ok s') : Fifo s' := by
  obtain ⟨-, happended, ⟨front, rest, hlist, hlist', hremoved, -⟩ |
    ⟨hlist, hremoved, -⟩ | ⟨hlist, hremoved, -⟩⟩ := SharedQueue.advance_dequeues hpc h
  · rw [Fifo, happended, hremoved, hlist', hfifo, hlist]
    simp
  · rw [Fifo, happended, hremoved, hlist]
    exact hfifo
  · rw [Fifo, happended, hremoved, hlist]
    exact hfifo

end Step

end SharedQueue

end Osi
