import Osi.FixedQueue.Interleaving.Runs

/-!
# One thread alone

The operations of `FixedQueue/Basic.lean` are the calls of
`FixedQueue/Interleaving.lean` with nobody else around: a thread that runs a call
from a state with no operation in progress, without a step of another thread in
between, ends with the result and with the queue that the operation of
`FixedQueue` computes, and it waits where the operation has no result.
-/

namespace Osi

namespace SharedQueue

open Transition

section Refinement

variable {T α : Type*} {s s' : State T α} {q q' : FixedQueue α} {t : T} {x : α}
  {r : Result α}

/-- The shared queue with no operation in progress is the queue `q`. -/
structure Sequential (s : State T α) (q : FixedQueue α) : Prop where
  list : s.list.map Node.data = q.list
  enqueueSem : s.enqueueSem = q.enqueueSem
  dequeueSem : s.dequeueSem = q.dequeueSem
  lock : s.lock = none

theorem Sequential.enqueueSem_eq_zero_iff (h : Sequential s q) :
    s.enqueueSem = 0 ↔ q.tryEnqueue x = none := by
  rw [h.enqueueSem]
  by_cases hsem : q.enqueueSem = 0
  · simp [FixedQueue.tryEnqueue, hsem]
  · simp [FixedQueue.tryEnqueue, hsem]

variable [DecidableEq T] [DecidableEq α]

/-- The result of a call on a queue that no other thread uses, and the queue
after it; `none` when the call waits. -/
def Op.alone (q : FixedQueue α) : Op α → Option (Result α × FixedQueue α)
  | enqueue x =>
      match q.enqueue x with
      | some q' => some (.done, q')
      | none => none
  | tryEnqueue x =>
      match q.tryEnqueue x with
      | some q' => some (.flag true, q')
      | none => some (.flag false, q)
  | dequeue =>
      match q.dequeue with
      | some (x, q') => some (.data (some x), q')
      | none => none
  | tryDequeue => some (.data q.tryDequeue.1, q.tryDequeue.2)
  | tryRemoveFromQueue x =>
      some (.data (q.tryRemoveFromQueue x).1, (q.tryRemoveFromQueue x).2)

def State.advances (t : T) : ℕ → State T α → Except Fault (State T α)
  | 0, s => .ok s
  | n + 1, s =>
      match s.advance t with
      | .error e => .error e
      | .ok s' => s'.advances t n

theorem run_of_advances {n : ℕ} (h : s.advances t n = .ok s') :
    Run (Next State.step) s (List.replicate n (.run t)) s' := by
  induction n generalizing s with
  | zero =>
      obtain rfl : s = s' := by simpa [State.advances] using h
      exact .nil s
  | succ n ih =>
      rw [State.advances] at h
      split at h
      · cases h
      · rename_i s₁ hs₁
        exact .cons hs₁ (ih h)

/-- An enqueuer with a slot goes on to the end of its call. -/
theorem enqueue_advances (hlock : s.lock = none) (ht : s.pc t = .enqueueLock x r) :
    ∃ s', s.advances t 4 = .ok s' ∧
      s'.list = s.list ++ [⟨s.appended.length, x⟩] ∧
      s'.enqueueSem = s.enqueueSem ∧ s'.dequeueSem = s.dequeueSem + 1 ∧
      s'.lock = none ∧ s'.pc t = .idle r := by
  simp [State.advances, State.advance, State.goto, State.acquire, State.release,
    State.append, hlock, ht]

/-- A dequeuer with a token goes on to the end of its call. -/
theorem dequeue_advances {front : Node α} {rest : List (Node α)} (hlock : s.lock = none)
    (ht : s.pc t = .dequeueLock) (hlist : s.list = front :: rest) :
    ∃ s', s.advances t 4 = .ok s' ∧ s'.list = rest ∧
      s'.enqueueSem = s.enqueueSem + 1 ∧ s'.dequeueSem = s.dequeueSem ∧
      s'.lock = none ∧ s'.pc t = .idle (.data (some front.data)) := by
  simp [State.advances, State.advance, State.goto, State.acquire, State.release,
    listRemove_front, hlock, ht, hlist]

theorem remove_advances (hlock : s.lock = none) (ht : s.pc t = .removeLock x)
    (hx : x ∈ s.list.map Node.data) (hsem : s.dequeueSem ≠ 0) :
    ∃ s', s.advances t 6 = .ok s' ∧ s'.list = (listRemove s.list x).1 ∧
      s'.enqueueSem = s.enqueueSem + 1 ∧ s'.dequeueSem = s.dequeueSem - 1 ∧
      s'.lock = none ∧ s'.pc t = .idle (.data (some x)) := by
  have hcontains : listContains s.list x = true := listContains_iff.mpr hx
  simp [State.advances, State.advance, State.goto, State.acquire, State.release,
    listRemove, hlock, ht, hcontains, hsem]

theorem remove_advances_of_not_mem (hlock : s.lock = none) (ht : s.pc t = .removeLock x)
    (hx : x ∉ s.list.map Node.data) :
    ∃ s', s.advances t 3 = .ok s' ∧ s'.list = s.list ∧
      s'.enqueueSem = s.enqueueSem ∧ s'.dequeueSem = s.dequeueSem ∧
      s'.lock = none ∧ s'.pc t = .idle (.data none) := by
  have hcontains : listContains s.list x = false := by
    rw [← Bool.not_eq_true, listContains_iff]
    exact hx
  simp [State.advances, State.advance, State.goto, State.acquire, State.release,
    hlock, ht, hcontains]

namespace Sequential

theorem enqueue (h : Sequential s q) (hq' : q.tryEnqueue x = some q')
    (ht : s.pc t = .enqueueWait x ∧ r = .done ∨
      s.pc t = .enqueueTryWait x ∧ r = .flag true) :
    ∃ s', s.advances t 5 = .ok s' ∧ Sequential s' q' ∧ s'.pc t = .idle r := by
  have hsem : s.enqueueSem ≠ 0 := by
    intro hzero
    rw [h.enqueueSem_eq_zero_iff.mp hzero] at hq'
    cases hq'
  have hfirst : s.advance t = .ok ({ s with enqueueSem := s.enqueueSem - 1 }.goto t
      (.enqueueLock x r)) := by
    rcases ht with ⟨hpc, rfl⟩ | ⟨hpc, rfl⟩
    · simp [State.advance, hpc, hsem]
    · simp [State.advance, hpc, hsem]
  obtain ⟨s', hs', hlist, henqueue, hdequeue, hlock, hpc⟩ :=
    enqueue_advances (s := { s with enqueueSem := s.enqueueSem - 1 }.goto t
      (.enqueueLock x r)) h.lock (Function.update_self t _ _)
  refine ⟨s', ?_, ?_, hpc⟩
  · rw [State.advances, hfirst]
    exact hs'
  · have hroom : q.enqueueSem ≠ 0 := h.enqueueSem ▸ hsem
    simp only [FixedQueue.tryEnqueue, hroom, dite_false, Option.some.injEq] at hq'
    subst hq'
    refine ⟨?_, ?_, ?_, hlock⟩
    · rw [hlist, List.map_append]
      exact congrArg (· ++ [x]) h.list
    · rw [henqueue]
      exact congrArg (· - 1) h.enqueueSem
    · rw [hdequeue]
      exact congrArg (· + 1) h.dequeueSem

theorem dequeue (h : Sequential s q) (hq : q.tryDequeue = (some x, q'))
    (ht : s.pc t = .dequeueWait ∨ s.pc t = .dequeueTryWait) :
    ∃ s', s.advances t 5 = .ok s' ∧ Sequential s' q' ∧
      s'.pc t = .idle (.data (some x)) := by
  have hsem : q.dequeueSem ≠ 0 := by
    intro hzero
    simp [FixedQueue.tryDequeue, hzero] at hq
  have hsem' : s.dequeueSem ≠ 0 := h.dequeueSem ▸ hsem
  obtain ⟨front, rest, hlist⟩ : ∃ front rest, s.list = front :: rest := by
    apply List.exists_cons_of_ne_nil
    intro hnil
    apply hsem
    rw [q.dequeueSem_eq, ← h.list, hnil]
    rfl
  have hqlist : q.list = front.data :: rest.map Node.data := by
    rw [← h.list, hlist]
    rfl
  have hfirst : s.advance t = .ok ({ s with dequeueSem := s.dequeueSem - 1 }.goto t
      .dequeueLock) := by
    rcases ht with hpc | hpc
    · simp [State.advance, hpc, hsem']
    · simp [State.advance, hpc, hsem']
  obtain ⟨s', hs', hlist', henqueue, hdequeue, hlock, hpc⟩ :=
    dequeue_advances (s := { s with dequeueSem := s.dequeueSem - 1 }.goto t
      .dequeueLock) h.lock (Function.update_self t _ _) hlist
  obtain ⟨hx, hq'list, _⟩ := FixedQueue.tryDequeue_of_cons hqlist
  rw [hq] at hx hq'list
  obtain rfl : x = front.data := Option.some.inj hx
  refine ⟨s', ?_, ?_, hpc⟩
  · rw [State.advances, hfirst]
    exact hs'
  · simp only [FixedQueue.tryDequeue, hsem, dite_false, Prod.mk.injEq] at hq
    obtain ⟨_, rfl⟩ := hq
    refine ⟨?_, ?_, ?_, hlock⟩
    · rw [hlist', hq'list]
    · rw [henqueue]
      exact congrArg (· + 1) h.enqueueSem
    · rw [hdequeue]
      exact congrArg (· - 1) h.dequeueSem

theorem tryRemoveFromQueue (h : Sequential s q) (ht : s.pc t = .removeLock x) :
    ∃ n s', s.advances t n = .ok s' ∧ Sequential s' (q.tryRemoveFromQueue x).2 ∧
      s'.pc t = .idle (.data (q.tryRemoveFromQueue x).1) := by
  by_cases hx : x ∈ q.list
  · have hsem : s.dequeueSem ≠ 0 := by
      rw [h.dequeueSem, q.dequeueSem_eq]
      exact Nat.ne_of_gt (List.length_pos_of_mem hx)
    obtain ⟨s', hs', hlist, henqueue, hdequeue, hlock, hpc⟩ :=
      remove_advances h.lock ht (h.list ▸ hx) hsem
    rw [FixedQueue.tryRemoveFromQueue_of_mem hx]
    refine ⟨6, s', hs', ⟨?_, ?_, ?_, hlock⟩, hpc⟩
    · rw [hlist, map_listRemove, h.list]
      rfl
    · rw [henqueue, h.enqueueSem]
      rfl
    · rw [hdequeue, h.dequeueSem]
      rfl
  · obtain ⟨s', hs', hlist, henqueue, hdequeue, hlock, hpc⟩ :=
      remove_advances_of_not_mem h.lock ht (h.list ▸ hx)
    rw [FixedQueue.tryRemoveFromQueue_of_not_mem hx]
    exact ⟨3, s', hs', ⟨hlist ▸ h.list, henqueue ▸ h.enqueueSem,
      hdequeue ▸ h.dequeueSem, hlock⟩, hpc⟩

end Sequential

/-- From its first program point a call that runs alone does what the operation
of the sequential queue does. -/
theorem Sequential.advances {op : Op α} (h : Sequential s q) (ht : s.pc t = op.entry)
    (hop : op.alone q = some (r, q')) :
    ∃ n s', s.advances t n = .ok s' ∧ Sequential s' q' ∧ s'.pc t = .idle r := by
  have hstay : ∀ {v : Result α}, s.advance t = .ok (s.goto t (.idle v)) →
      ∃ n s', s.advances t n = .ok s' ∧ Sequential s' q ∧ s'.pc t = .idle v := by
    intro v hv
    refine ⟨1, s.goto t (.idle v), ?_, ⟨h.list, h.enqueueSem, h.dequeueSem, h.lock⟩,
      Function.update_self t _ _⟩
    simp only [State.advances, hv]
  cases op with
  | enqueue x =>
      simp only [Op.alone] at hop
      split at hop
      · rename_i q₁ hq₁
        cases hop
        exact ⟨5, h.enqueue hq₁ (Or.inl ⟨ht, rfl⟩)⟩
      · cases hop
  | tryEnqueue x =>
      simp only [Op.alone] at hop
      split at hop
      · rename_i q₁ hq₁
        cases hop
        exact ⟨5, h.enqueue hq₁ (Or.inr ⟨ht, rfl⟩)⟩
      · rename_i hnone
        cases hop
        have hsem := h.enqueueSem_eq_zero_iff.mpr hnone
        exact hstay (by simp only [State.advance, ht, Op.entry, hsem, if_true])
  | dequeue =>
      simp only [Op.alone, FixedQueue.dequeue] at hop
      split at hop
      · rename_i x q₁ hq₁
        split at hq₁
        · rename_i x' q₂ hq₂
          cases hq₁
          cases hop
          exact ⟨5, h.dequeue hq₂ (Or.inl ht)⟩
        · cases hq₁
      · cases hop
  | tryDequeue =>
      simp only [Op.alone] at hop
      cases hop
      rcases hq : q.tryDequeue with ⟨_ | x, q₁⟩
      · have hqsem : q.dequeueSem = 0 := by
          by_contra hne
          simp [FixedQueue.tryDequeue, hne] at hq
        have hsem := h.dequeueSem.trans hqsem
        simp only [FixedQueue.tryDequeue, hqsem, dite_true, Prod.mk.injEq] at hq
        obtain ⟨_, rfl⟩ := hq
        exact hstay (by simp only [State.advance, ht, Op.entry, hsem, if_true])
      · exact ⟨5, h.dequeue hq (Or.inr ht)⟩
  | tryRemoveFromQueue x =>
      simp only [Op.alone] at hop
      cases hop
      exact h.tryRemoveFromQueue ht

theorem Sequential.waits {op : Op α} (h : Sequential s q) (ht : s.pc t = op.entry)
    (hop : op.alone q = none) : s.advance t = .error .blocked := by
  cases op with
  | enqueue x =>
      simp only [Op.alone] at hop
      split at hop
      · cases hop
      · rename_i hnone
        have hsem := h.enqueueSem_eq_zero_iff.mpr hnone
        simp only [State.advance, ht, Op.entry, hsem, if_true]
  | tryEnqueue x =>
      simp only [Op.alone] at hop
      split at hop
      · cases hop
      · cases hop
  | dequeue =>
      have hqsem : q.dequeueSem = 0 := by
        by_contra hne
        simp [Op.alone, FixedQueue.dequeue, FixedQueue.tryDequeue, hne] at hop
      have hsem := h.dequeueSem.trans hqsem
      simp only [State.advance, ht, Op.entry, hsem, if_true]
  | tryDequeue => cases hop
  | tryRemoveFromQueue x => cases hop

/-- The operations of `FixedQueue` are the calls of a thread that is alone with
the queue. -/
theorem call_refines_alone (op : Op α) (h : Sequential s q) (r₀ : Result α)
    (ht : s.pc t = .idle r₀) :
    match op.alone q with
    | some (r, q') =>
        ∃ n s', Run (Next State.step) s (.call t op :: List.replicate n (.run t)) s' ∧
          Sequential s' q' ∧ s'.pc t = .idle r
    | none =>
        ∃ s', s.step (.call t op) = .ok s' ∧ s'.step (.run t) = .error .blocked := by
  have hcall : s.step (.call t op) = .ok (s.goto t op.entry) := by
    simp only [State.step, ht]
  have hentry : Sequential (s.goto t op.entry) q :=
    ⟨h.list, h.enqueueSem, h.dequeueSem, h.lock⟩
  have hpc : (s.goto t op.entry).pc t = op.entry := Function.update_self t _ _
  split
  · rename_i r q' hop
    obtain ⟨n, s', hs', hsequential, hidle⟩ := hentry.advances hpc hop
    exact ⟨n, s', .cons hcall (run_of_advances hs'), hsequential, hidle⟩
  · rename_i hop
    exact ⟨_, hcall, hentry.waits hpc hop⟩

end Refinement

end SharedQueue

end Osi
