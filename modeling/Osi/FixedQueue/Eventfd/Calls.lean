import Osi.FixedQueue.Eventfd.Counter

/-!
# The calls on the eventfds

The steps of the queue on its eventfds, and the state of the atomic queue that is seen
through them: a thread whose semaphore call has taken effect is seen behind it.
-/

namespace Osi

namespace EventfdQueue

open Transition SharedQueue

namespace State

variable {T α : Type*} [DecidableEq T]

def setSem (s : State T α) (side : Side) (m : Semaphore.State T) : State T α :=
  { s with sem := Function.update s.sem side m }

inductive StepCase [DecidableEq α] (s : State T α) : Label T α → State T α → Prop
  | call {t : T} {op : Op α} {r : Result α} (hpc : s.pc t = .idle r) :
      StepCase s (.call t op) (s.goto t op.entry)
  /-- the thread enters a semaphore call -/
  | enter {t : T} {side : Side} {op : Semaphore.Op}
      (hcall : semCall (s.pc t) = some (side, op)) (hidle : (s.sem side).pc t = .idle) :
      StepCase s (.run t) (s.setSem side ((s.sem side).goto t op.entry))
  /-- a system call that is not the last one of its semaphore call -/
  | inner {t : T} {side : Side} {op : Semaphore.Op} {m : Semaphore.State T}
      (hcall : semCall (s.pc t) = some (side, op)) (hbusy : (s.sem side).pc t ≠ .idle)
      (hm : (s.sem side).advance t = .ok m) (hstay : m.pc t ≠ .idle) :
      StepCase s (.run t) (s.setSem side m)
  /-- the last system call of a semaphore call -/
  | leave {t : T} {side : Side} {op : Semaphore.Op} {m : Semaphore.State T}
      (hcall : semCall (s.pc t) = some (side, op)) (hbusy : (s.sem side).pc t ≠ .idle)
      (hm : (s.sem side).advance t = .ok m) (hdone : m.pc t = .idle) :
      StepCase s (.run t) ((s.setSem side m).goto t
        (afterCall (returned ((s.sem side).pc t)) (s.pc t)))
  /-- a step on the lock or on the list -/
  | inList {t : T} {q : SharedQueue.State T α} (hcall : semCall (s.pc t) = none)
      (hq : s.plain.advance t = .ok q) : StepCase s (.run t) (s.afterSection q)

theorem onSemaphore_eq_ok {s s' : State T α} {side : Side} {l : Semaphore.Label T}
    (h : s.onSemaphore side l = .ok s') :
    ∃ m, (s.sem side).step l = .ok m ∧ s' = s.setSem side m := by
  unfold onSemaphore at h
  split at h
  · rename_i m hm
    cases h
    exact ⟨m, hm, rfl⟩
  · cases h

theorem onSemaphore_ne_assertion {s : State T α} {side : Side} {l : Semaphore.Label T} :
    s.onSemaphore side l ≠ .error .assertion := by
  intro h
  unfold onSemaphore at h
  split at h
  · cases h
  · rename_i e _
    cases e <;> cases h

theorem step_cases [DecidableEq α] {s s' : State T α} {l : Label T α}
    (h : s.step l = .ok s') : StepCase s l s' := by
  cases l with
  | call t op =>
      simp only [step] at h
      split at h
      · rename_i r hpc
        cases h
        exact .call hpc
      · cases h
  | run t =>
      simp only [step, advance] at h
      split at h
      · rename_i side op hcall
        split at h
        · rename_i hidle
          obtain ⟨m, hm, rfl⟩ := onSemaphore_eq_ok h
          simp only [Semaphore.State.step, hidle] at hm
          cases hm
          exact .enter hcall hidle
        · rename_i v hbusy
          split at h
          · rename_i s₁ hs₁
            obtain ⟨m, hm, rfl⟩ := onSemaphore_eq_ok hs₁
            have hsem : ((s.setSem side m).sem side) = m := Function.update_self ..
            rw [hsem] at h
            split_ifs at h with hdone
            · cases h
              exact .leave hcall hbusy hm hdone
            · cases h
              exact .inner hcall hbusy hm hdone
          · cases h
      · rename_i hcall
        split at h
        · rename_i q hq
          cases h
          exact .inList hcall hq
        · cases h

end State

/-! ## The simulation -/

namespace State

variable {T α : Type*}

/-- The program point that the atomic queue has for a thread: a `semaphore_try_wait`
has returned there as soon as its outcome is settled. -/
def seen (s : State T α) (t : T) : Pc α :=
  match semCall (s.pc t) with
  | some (side, _) =>
      if ((s.sem side).pc t).settled then
        afterCall (returned ((s.sem side).pc t)) (s.pc t)
      else s.pc t
  | none => s.pc t

/-- The atomic queue that a state stands for. -/
def abs (s : State T α) : SharedQueue.State T α :=
  { s.plain with pc := s.seen }

theorem counter_abs (s : State T α) (side : Side) :
    counter s.abs side = (s.sem side).counter := by
  cases side <;> rfl

theorem seen_of_none {s : State T α} {t : T} (h : semCall (s.pc t) = none) :
    s.seen t = s.pc t := by
  simp only [seen, h]

theorem seen_of_unsettled {s : State T α} {t : T} {side : Side} {op : Semaphore.Op}
    (h : semCall (s.pc t) = some (side, op))
    (hsettled : ((s.sem side).pc t).settled = false) : s.seen t = s.pc t := by
  simp [seen, h, hsettled]

theorem seen_of_settled {s : State T α} {t : T} {side : Side} {op : Semaphore.Op}
    (h : semCall (s.pc t) = some (side, op))
    (hsettled : ((s.sem side).pc t).settled = true) :
    s.seen t = afterCall (returned ((s.sem side).pc t)) (s.pc t) := by
  simp [seen, h, hsettled]

theorem seen_of_idle {s : State T α} {t : T} (h : ∀ side, (s.sem side).pc t = .idle) :
    s.seen t = s.pc t := by
  cases hcall : semCall (s.pc t) with
  | none => exact seen_of_none hcall
  | some call => exact seen_of_unsettled hcall (by rw [h]; rfl)

/-- What a thread is seen to do depends on its own program points only. -/
theorem seen_congr {s s' : State T α} {t : T} (hpc : s'.pc t = s.pc t)
    (hsem : ∀ side, (s'.sem side).pc t = (s.sem side).pc t) : s'.seen t = s.seen t := by
  simp only [seen, hpc, hsem]

/-- The threads inside a semaphore call are at the program points that make it. -/
def Calling (s : State T α) : Prop :=
  ∀ side t op, ((s.sem side).pc t).op = some op → semCall (s.pc t) = some (side, op)

theorem Calling.op {s : State T α} (h : s.Calling) {t : T} {side : Side}
    {op : Semaphore.Op} (hcall : semCall (s.pc t) = some (side, op))
    (hbusy : (s.sem side).pc t ≠ .idle) : ((s.sem side).pc t).op = some op := by
  cases hop : ((s.sem side).pc t).op with
  | none => exact absurd (Semaphore.Pc.op_eq_none.mp hop) hbusy
  | some op' =>
      have hsame := h side t op' hop
      rw [hcall] at hsame
      cases hsame
      rfl

theorem Calling.idle {s : State T α} (h : s.Calling) {t : T}
    (hnone : semCall (s.pc t) = none) (side : Side) : (s.sem side).pc t = .idle := by
  cases hop : ((s.sem side).pc t).op with
  | none => exact Semaphore.Pc.op_eq_none.mp hop
  | some op => exact absurd (h side t op hop) (by simp [hnone])

theorem calling_init (capacity : UInt64) : (init capacity : State T α).Calling := by
  intro side t op hop
  cases side <;> cases hop

/-- The counters stay far below the largest value of an eventfd. -/
theorem counter_lt [Fintype T] {s : State T α} {slots : ℕ}
    (h : Invariant slots s.abs) (hslots : slots < 2 ^ 32) (side : Side) :
    (s.sem side).counter < Semaphore.eventfdMax := by
  have hmax : 2 ^ 32 ≤ Semaphore.eventfdMax := by decide
  have hslots_eq := h.slots_eq
  have htokens_eq := h.tokens_eq
  cases side with
  | enqueue =>
      have : (s.sem .enqueue).counter = s.abs.enqueueSem := rfl
      omega
  | dequeue =>
      have : (s.sem .dequeue).counter = s.abs.dequeueSem := rfl
      omega

variable [DecidableEq T]

/-- Apart from the thread `t` nothing has moved. -/
def Frame (t : T) (s s' : State T α) : Prop :=
  ∀ u, u ≠ t → s'.pc u = s.pc u ∧ ∀ side, (s'.sem side).pc u = (s.sem side).pc u

theorem Frame.of_setSem {s : State T α} {t : T} {side : Side} {m : Semaphore.State T}
    {v : Semaphore.Pc} (hm : m.pc = Function.update (s.sem side).pc t v) :
    Frame t s (s.setSem side m) := by
  intro u hu
  refine ⟨rfl, ?_⟩
  intro side'
  by_cases hside : side' = side
  · subst hside
    simp [setSem, hm, hu]
  · simp [setSem, hside]

theorem Frame.goto {s s' : State T α} {t : T} (h : Frame t s s') (v : Pc α) :
    Frame t s (s'.goto t v) := by
  intro u hu
  refine ⟨?_, (h u hu).2⟩
  exact (Function.update_of_ne hu v s'.pc).trans (h u hu).1

theorem Frame.afterSection {s : State T α} {t : T} {q : SharedQueue.State T α} {v : Pc α}
    (hq : q.pc = Function.update s.pc t v) : Frame t s (s.afterSection q) := by
  intro u hu
  refine ⟨?_, fun _ => rfl⟩
  simp [State.afterSection, hq, hu]

theorem Frame.seen {s s' : State T α} {t : T} (h : Frame t s s') :
    s'.seen = Function.update s.seen t (s'.seen t) := by
  funext u
  by_cases hu : u = t
  · subst hu
    rw [Function.update_self]
  · rw [Function.update_of_ne hu]
    exact seen_congr (h u hu).1 (h u hu).2

theorem Calling.move {s s' : State T α} {t : T} (h : s.Calling) (hframe : Frame t s s')
    (ht : ∀ side op, ((s'.sem side).pc t).op = some op →
      semCall (s'.pc t) = some (side, op)) : s'.Calling := by
  intro side u op hop
  by_cases hu : u = t
  · subst hu
    exact ht side op hop
  · rw [(hframe u hu).2 side] at hop
    rw [(hframe u hu).1]
    exact h side u op hop

theorem semCall_afterCall (rc : Bool) (v : Pc α) : semCall (afterCall rc v) = none := by
  cases rc <;> cases v <;> rfl

/-- A semaphore step of one thread, seen by the atomic queue: the counter and the
thread's own point change. -/
theorem abs_setSem {s s' : State T α} {t : T} {side : Side} {m : Semaphore.State T}
    (hframe : Frame t s s') (hsem : s'.sem = Function.update s.sem side m)
    (hlist : s'.list = s.list) (hlock : s'.lock = s.lock)
    (happended : s'.appended = s.appended) (hremoved : s'.removed = s.removed) :
    s'.abs = (setCounter s.abs m.counter side).goto t (s'.seen t) := by
  have hseen := hframe.seen
  cases side with
  | enqueue =>
      simp only [abs, plain, hsem, hlist, hlock, happended, hremoved, setCounter,
        SharedQueue.State.goto]
      rw [hseen]
      simp
  | dequeue =>
      simp only [abs, plain, hsem, hlist, hlock, happended, hremoved, setCounter,
        SharedQueue.State.goto]
      rw [hseen]
      simp

theorem goto_seen {s : State T α} {t : T} {side : Side} {m : Semaphore.State T}
    (hcounter : m.counter = (s.sem side).counter) {v : Pc α} (hv : v = s.seen t) :
    (setCounter s.abs m.counter side).goto t v = s.abs := by
  subst hv
  cases side with
  | enqueue => simp [abs, plain, setCounter, SharedQueue.State.goto, hcounter]
  | dequeue => simp [abs, plain, setCounter, SharedQueue.State.goto, hcounter]

theorem Calling.step [DecidableEq α] {s s' : State T α} {l : Label T α} (h : s.Calling)
    (hs' : s.step l = .ok s') : s'.Calling := by
  cases step_cases hs' with
  | @call t op r hpc =>
      have hframe : Frame t s s := fun _ _ => ⟨rfl, fun _ => rfl⟩
      refine h.move (hframe.goto op.entry) ?_
      intro side op' hop
      have hidle := h.idle (t := t) (by rw [hpc]; rfl) side
      simp only [goto, hidle] at hop
      cases hop
  | @enter t side op hcall hidle =>
      refine h.move (.of_setSem rfl) ?_
      intro side' op' hop
      by_cases hside : side' = side
      · subst hside
        have hop' : op = op' := by
          simpa [setSem, Semaphore.State.goto, Semaphore.Op.entry_op] using hop
        subst hop'
        exact hcall
      · simp only [setSem, Function.update_of_ne hside] at hop
        exact h side' t op' hop
  | @inner t side op m hcall hbusy hm hstay =>
      obtain ⟨v, hv, hop⟩ := Semaphore.advance_op hm
      refine h.move (.of_setSem hv) ?_
      intro side' op' hop'
      by_cases hside : side' = side
      · subst hside
        have hne : v ≠ .idle := by simpa [hv] using hstay
        have hvop : v.op = some op' := by simpa [setSem, hv] using hop'
        rw [hop.resolve_left hne] at hvop
        exact h side' t op' hvop
      · simp only [setSem, Function.update_of_ne hside] at hop'
        exact h side' t op' hop'
  | @leave t side op m hcall hbusy hm hdone =>
      obtain ⟨v, hv, -⟩ := Semaphore.advance_op hm
      refine h.move ((Frame.of_setSem hv).goto _) ?_
      intro side' op' hop'
      by_cases hside : side' = side
      · subst hside
        simp only [goto, setSem, Function.update_self, hdone] at hop'
        cases hop'
      · simp only [goto, setSem, Function.update_of_ne hside] at hop'
        have hother := h side' t op' hop'
        rw [hcall] at hother
        exact absurd (congrArg Prod.fst (Option.some.inj hother)).symm hside
  | @inList t q hcall hq =>
      obtain ⟨list, lock, appended, removed, v, rfl, -⟩ := advance_section hcall hq
      refine h.move (.afterSection rfl) ?_
      intro side op hop
      have hidle := h.idle hcall side
      simp only [afterSection, hidle] at hop
      cases hop

theorem abs_enter {s : State T α} {t : T} {side : Side} {op : Semaphore.Op}
    (hcall : semCall (s.pc t) = some (side, op))
    (hidle : (s.sem side).pc t = .idle) :
    (s.setSem side ((s.sem side).goto t op.entry)).abs = s.abs := by
  have hbefore : s.seen t = s.pc t := seen_of_unsettled hcall (by rw [hidle]; rfl)
  have hafter : (s.setSem side ((s.sem side).goto t op.entry)).seen t = s.pc t := by
    refine seen_of_unsettled (s := s.setSem side _) hcall ?_
    simp [setSem, Semaphore.State.goto, Semaphore.Op.entry_settled]
  rw [abs_setSem (.of_setSem rfl) rfl rfl rfl rfl rfl]
  exact goto_seen rfl (hafter.trans hbefore.symm)

end State

end EventfdQueue

end Osi
