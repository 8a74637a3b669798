import Osi.FixedQueue.Eventfd.Refinement

/-!
# Which uses of a queue are safe on eventfds

Whether a `semaphore_try_wait` gets in the way of another call depends on who calls
what. A semaphore of the queue is used well if no thread tries it, if one thread
alone waits on it and tries it, or if no thread waits on it. The work queue of a
`thread_t` is of the first kind on the enqueuing side and of the second on the
dequeuing side; a queue of alarms is of the third kind on the dequeuing side.

Only the third kind lets two tries overlap, and then one of them may go to sleep.
`fixed_queue_try_remove_from_queue` does so with the lock of the queue held.
-/

namespace Osi

namespace EventfdQueue

open Transition SharedQueue

inductive Usage (T : Type*)
  /-- no thread calls `semaphore_try_wait` -/
  | blocking
  /-- no thread but one calls `semaphore_wait` or `semaphore_try_wait` -/
  | single (t : T)
  /-- no thread calls `semaphore_wait` -/
  | polling
  deriving DecidableEq, Repr

namespace Usage

variable {T : Type*}

def Permits : Usage T → T → Semaphore.Op → Prop
  | blocking, _, op => op ≠ .tryWait
  | single u, t, op => op ≠ .post → t = u
  | polling, _, op => op ≠ .wait

instance [DecidableEq T] (usage : Usage T) (t : T) (op : Semaphore.Op) :
    Decidable (usage.Permits t op) :=
  match usage with
  | blocking => inferInstanceAs (Decidable (op ≠ .tryWait))
  | single u => inferInstanceAs (Decidable (op ≠ .post → t = u))
  | polling => inferInstanceAs (Decidable (op ≠ .wait))

/-- Where a try and another wait or try are permitted, and not every try is, they are
calls of one thread. -/
theorem unique {usage : Usage T} (h : usage ≠ polling) {t u : T} {op : Semaphore.Op}
    (ht : usage.Permits t .tryWait) (hu : usage.Permits u op) (hop : op ≠ .post) :
    u = t := by
  cases usage with
  | blocking => exact absurd rfl ht
  | single w => exact (hu hop).trans (ht (by simp)).symm
  | polling => exact absurd rfl h

end Usage

/-- The semaphore call with which an operation gets its slot or its element. -/
def opWaits {α : Type*} : Op α → Side × Semaphore.Op
  | .enqueue _ => (.enqueue, .wait)
  | .tryEnqueue _ => (.enqueue, .tryWait)
  | .dequeue => (.dequeue, .wait)
  | .tryDequeue => (.dequeue, .tryWait)
  | .tryRemoveFromQueue _ => (.dequeue, .tryWait)

/-- The same for a call in progress that has not got there or is at it. -/
def waits {α : Type*} : Pc α → Option (Side × Semaphore.Op)
  | .enqueueWait _ => some (.enqueue, .wait)
  | .enqueueTryWait _ => some (.enqueue, .tryWait)
  | .dequeueWait => some (.dequeue, .wait)
  | .dequeueTryWait | .removeLock _ | .removeContains _ | .removeTryWait _ =>
      some (.dequeue, .tryWait)
  | _ => none

def initialValue (capacity : UInt64) : Side → UInt32
  | .enqueue => capacity.toUInt32
  | .dequeue => 0

def Uses {T α : Type*} (usage : Side → Usage T) (_ : State T α) : Label T α → Prop
  | .call t op => (usage (opWaits op).1).Permits t (opWaits op).2
  | .run _ => True

instance {T α : Type*} [DecidableEq T] (usage : Side → Usage T) (s : State T α)
    (l : Label T α) : Decidable (Uses usage s l) :=
  match l with
  | .call t op => inferInstanceAs (Decidable ((usage (opWaits op).1).Permits t (opWaits op).2))
  | .run _ => isTrue trivial

section Waits

variable {α : Type*}

theorem waits_entry (op : Op α) : waits op.entry = some (opWaits op) := by
  cases op <;> rfl

theorem waits_of_semCall {v : Pc α} {side : Side} {op : Semaphore.Op}
    (h : semCall v = some (side, op)) (hop : op ≠ .post) : waits v = some (side, op) := by
  cases v <;> cases h <;> first | rfl | exact absurd rfl hop

theorem waits_afterCall (rc : Bool) {v : Pc α} (h : semCall v ≠ none) :
    waits (afterCall rc v) = none := by
  cases rc <;> cases v <;> first | rfl | exact absurd rfl h

/-- A step leads to no new semaphore call. -/
theorem waits_section {T : Type*} [DecidableEq T] [DecidableEq α]
    {q q' : SharedQueue.State T α} {t : T} (hq' : q.advance t = .ok q') :
    waits (q'.pc t) = none ∨ waits (q'.pc t) = waits (q.pc t) := by
  cases hpc : q.pc t with
  | removeContains x =>
      simp only [SharedQueue.State.advance, hpc] at hq'
      split_ifs at hq' <;> cases hq' <;> simp [SharedQueue.State.goto, waits]
  | removeLock x =>
      simp only [SharedQueue.State.advance, SharedQueue.State.acquire, hpc] at hq'
      split at hq' <;> cases hq'
      simp [SharedQueue.State.goto, waits]
  | _ =>
      left
      simp only [SharedQueue.State.advance, SharedQueue.State.acquire, hpc] at hq'
      repeat' split at hq'
      all_goals cases hq'
      all_goals simp [SharedQueue.State.goto, SharedQueue.State.release, waits]

end Waits

/-! ## Every run of a good usage -/

section Usage

variable {T α : Type*} [Fintype T] [DecidableEq T] [DecidableEq α]
  {usage : Side → Usage T} {value : Side → UInt32} {s s' : State T α} {l : Label T α} {t : T}
  {side : Side}

/-- The invariant: only permitted calls are in progress, and where not every try is
permitted the semaphore is undisturbed and its tries do not sleep. -/
structure Used (usage : Side → Usage T) (value : Side → UInt32) (s : State T α) : Prop where
  calling : s.Calling
  permitted : ∀ t side op, waits (s.pc t) = some (side, op) → (usage side).Permits t op
  undisturbed : ∀ side, usage side ≠ .polling → Semaphore.Invariant (value side) (s.sem side)
  awake : ∀ side, usage side ≠ .polling → Semaphore.Awake (s.sem side)

namespace Used

omit [DecidableEq T] [DecidableEq α] in
theorem permits (h : Used usage value s) {op : Semaphore.Op}
    (hop : ((s.sem side).pc t).op = some op) (hpost : op ≠ .post) :
    (usage side).Permits t op :=
  h.permitted t side op (waits_of_semCall (h.calling side t op hop) hpost)

omit [DecidableEq T] [DecidableEq α] in
theorem alone (h : Used usage value s) (hside : usage side ≠ .polling) {op : Semaphore.Op}
    (hop : ((s.sem side).pc t).op = some op) (hpost : op ≠ .post) {u : T}
    (hu : ((s.sem side).pc u).inWindow = true) : u = t := by
  have htry : ((s.sem side).pc u).op = some .tryWait := by
    cases hpc : (s.sem side).pc u <;> rw [hpc] at hu <;> first | rfl | cases hu
  exact (Usage.unique hside (h.permits htry (by simp)) (h.permits hop hpost) hpost).symm

omit [DecidableEq T] [DecidableEq α] in
theorem blocking (h : Used usage value s) (hside : usage side ≠ .polling)
    {op : Semaphore.Op} (hop : ((s.sem side).pc t).op = some op) (hpost : op ≠ .post)
    (hout : ((s.sem side).pc t).inWindow = false) :
    (s.sem side).nonblocking = false := by
  rcases (h.undisturbed side hside).flags with hflags | ⟨-, u, hu⟩
  · rw [Semaphore.State.nonblocking, hflags]
    decide
  · rw [h.alone hside hop hpost hu] at hu
    rw [hu] at hout
    cases hout

omit [DecidableEq T] [DecidableEq α] in
theorem undisturbed_run (h : Used usage value s) (hside : usage side ≠ .polling) :
    Semaphore.State.Undisturbed (s.sem side) (.run t) := by
  refine ⟨?_, ?_⟩
  · intro hpc
    exact h.blocking hside (by rw [hpc]; rfl) (by simp) (by rw [hpc]; rfl)
  · intro hpc
    exact .inl (h.blocking hside (by rw [hpc]; rfl) (by simp) (by rw [hpc]; rfl))

omit [DecidableEq α] in
theorem patient (h : Used usage value s) : State.Patient s l := by
  cases l with
  | call t op => trivial
  | run t =>
      intro side hpc
      by_cases hside : usage side = .polling
      · have hwait : ((s.sem side).pc t).op = some .wait := by
          rw [hpc]
          rfl
        have hpermits := h.permits hwait (by simp)
        rw [hside] at hpermits
        exact absurd rfl hpermits
      · exact (h.undisturbed_run hside).2 hpc

omit [DecidableEq α] in
/-- A step on one semaphore, with the thread at the point `v` of the queue after it. -/
theorem setSem (h : Used usage value s) {m : Semaphore.State T} {v : Pc α}
    (hs' : s'.sem = Function.update s.sem side m) (hpc : s'.pc = Function.update s.pc t v)
    (hcalling : s'.Calling) (hv : waits v = none ∨ waits v = waits (s.pc t))
    (hinv : usage side ≠ .polling → Semaphore.Invariant (value side) m)
    (hawake : usage side ≠ .polling → Semaphore.Awake m) : Used usage value s' := by
  refine ⟨hcalling, ?_, ?_, ?_⟩
  · intro u side' op hu
    rcases update_cases waits hu hpc with ⟨rfl, hwaits⟩ | ⟨-, hwaits⟩
    · rcases hv with hnone | hsame
      · rw [hnone] at hwaits
        cases hwaits
      · exact h.permitted u side' op (hsame.symm.trans hwaits)
    · exact h.permitted u side' op hwaits
  · intro side' hside'
    rw [hs']
    by_cases hsame : side' = side
    · subst hsame
      rw [Function.update_self]
      exact hinv hside'
    · rw [Function.update_of_ne hsame]
      exact h.undisturbed side' hside'
  · intro side' hside'
    rw [hs']
    by_cases hsame : side' = side
    · subst hsame
      rw [Function.update_self]
      exact hawake hside'
    · rw [Function.update_of_ne hsame]
      exact h.awake side' hside'

omit [DecidableEq α] in
theorem semaphore_advance (h : Used usage value s) {m : Semaphore.State T}
    (hm : (s.sem side).advance t = .ok m) (hside : usage side ≠ .polling) :
    Semaphore.Invariant (value side) m ∧ Semaphore.Awake m := by
  refine ⟨(h.undisturbed side hside).advance (h.undisturbed_run hside) hm, ?_⟩
  refine (h.awake side hside).advance (h.undisturbed side hside) ?_ hm
  intro hop u hut
  cases hu : ((s.sem side).pc u).inWindow with
  | false => rfl
  | true => exact absurd (h.alone hside hop (by simp) hu) hut

theorem step (h : Used usage value s) (huses : Uses usage s l) (hs' : s.step l = .ok s') :
    Used usage value s' := by
  have hcalling := h.calling.step hs'
  cases State.step_cases hs' with
  | @call t op r hpc =>
      refine ⟨hcalling, ?_, h.undisturbed, h.awake⟩
      intro u side op' hu
      rcases update_cases waits hu rfl with ⟨rfl, hwaits⟩ | ⟨-, hwaits⟩
      · have hpermits : (usage (opWaits op).1).Permits u (opWaits op).2 := huses
        rw [waits_entry] at hwaits
        rw [Option.some.inj hwaits] at hpermits
        exact hpermits
      · exact h.permitted u side op' hwaits
  | @enter t side op hcall hidle =>
      have hpc : s.pc = Function.update s.pc t (s.pc t) := (Function.update_eq_self t _).symm
      have hcall' : (s.sem side).step (.call t op) = .ok ((s.sem side).goto t op.entry) := by
        simp only [Semaphore.State.step, hidle]
      refine h.setSem rfl hpc hcalling (.inr rfl) ?_ ?_
      · intro hside
        exact (h.undisturbed side hside).step (l := .call t op) trivial hcall'
      · intro hside
        exact (h.awake side hside).outside rfl rfl (by cases op <;> rfl)
  | @inner t side op m hcall hbusy hm hstay =>
      have hpc : s.pc = Function.update s.pc t (s.pc t) := (Function.update_eq_self t _).symm
      exact h.setSem rfl hpc hcalling (.inr rfl) (fun hside => (h.semaphore_advance hm hside).1)
        fun hside => (h.semaphore_advance hm hside).2
  | @leave t side op m hcall hbusy hm hdone =>
      exact h.setSem rfl rfl hcalling (.inl (waits_afterCall _ (by simp [hcall])))
        (fun hside => (h.semaphore_advance hm hside).1)
        fun hside => (h.semaphore_advance hm hside).2
  | @inList t q hcall hq =>
      have hwaits := waits_section hq
      obtain ⟨list, lock, appended, removed, v, rfl, -⟩ := advance_section hcall hq
      rw [show (⟨list, s.plain.enqueueSem, s.plain.dequeueSem, lock,
        Function.update s.plain.pc t v, appended, removed⟩ :
          SharedQueue.State T α).pc t = v from Function.update_self ..] at hwaits
      exact h.setSem (Function.update_eq_self Side.enqueue _).symm rfl hcalling hwaits
        (h.undisturbed .enqueue) (h.awake .enqueue)

end Used

omit [DecidableEq T] [DecidableEq α] in
theorem used_init (usage : Side → Usage T) (capacity : UInt64) :
    Used usage (initialValue capacity) (State.init capacity : State T α) := by
  refine ⟨State.calling_init capacity, ?_, ?_, ?_⟩
  · intro t side op hwaits
    cases hwaits
  · intro side _
    cases side with
    | enqueue => exact Semaphore.Invariant.init _
    | dequeue => exact Semaphore.Invariant.init _
  · intro side _ t hin
    cases side <;> cases hin

end Usage

/-- If every call of a thread keeps to a usage of the two semaphores, whichever it is,
every run of the queue on its eventfds is one of the queue with atomic semaphores with
the same calls; and where not every try is permitted, no `semaphore_try_wait` sleeps and
`O_NONBLOCK` is set only while one is in progress. -/
theorem queue_usage_safe {T α : Type*} [Fintype T] [DecidableEq T] [DecidableEq α]
    (usage : Side → Usage T) (capacity : UInt64) (s : State T α) (ls : List (Label T α))
    (h : Run (Guarded (Uses usage) (Next State.step)) (State.init capacity) ls s) :
    (∃ ls', ls'.Sublist ls ∧ ls'.filter isCall = ls.filter isCall ∧
      Run (Next SharedQueue.State.step) (SharedQueue.State.init capacity) ls' s.abs) ∧
    ∀ side, usage side ≠ .polling →
      (∀ t flags, (s.sem side).pc t ≠ .tryBlocked flags) ∧
      ((s.sem side).nonblocking = true → ∃ t, ((s.sem side).pc t).op = some .tryWait) := by
  have hused : Used usage (initialValue capacity) s :=
    h.invariant (fun _ _ _ hs hstep => hs.step hstep.1 hstep.2) (used_init usage capacity)
  have hpatient : Run (Guarded State.Patient (Next State.step)) (State.init capacity) ls s :=
    h.guarded_of_invariant (fun _ _ _ hs huses hstep => hs.step huses hstep)
      (fun _ _ hs _ => hs.patient) (used_init usage capacity)
  refine ⟨(State.run_abs hpatient).2, ?_⟩
  intro side hside
  refine ⟨?_, ?_⟩
  · intro t flags hpc
    exact (hused.awake side hside t (by rw [hpc]; rfl)).2 flags hpc
  · intro hset
    rcases (hused.undisturbed side hside).flags with hflags | ⟨-, t, ht⟩
    · rw [Semaphore.State.nonblocking, hflags] at hset
      exact absurd hset (by decide)
    · refine ⟨t, ?_⟩
      cases hpc : (s.sem side).pc t <;> rw [hpc] at ht <;> first | rfl | cases ht

/-- The work queue of a thread: any thread enqueues and may have to wait, one thread
takes the elements out. -/
def workQueue : Side → Usage Bool
  | .enqueue => .blocking
  | .dequeue => .single true

/-- A thread fills the work queue, and the other one is asleep in between. -/
theorem queue_usage_safe_workQueue :
    ∃ s : State Bool ℕ, s.pc true = .dequeuePost 8 ∧
      ∀ t flags, (s.sem .dequeue).pc t ≠ .tryBlocked flags := by
  have hend : ((exec (fun s l => decide (Uses workQueue s l)) State.step (State.init 2)
      ([.call true .tryDequeue, .run true, .run true, .run true, .run true, .run true,
        .call false (.enqueue 8), .run false, .run false, .run false, .run false, .run false,
        .call true .dequeue, .run true, .run true, .run false, .run false, .run true,
        .run true, .run true, .run true])).any
      fun s => decide (s.pc true = .dequeuePost 8)) = true := by
    decide +kernel
  obtain ⟨s, hs, hend⟩ := (Option.any_eq_true _ _).mp hend
  obtain ⟨-, hsides⟩ := queue_usage_safe workQueue 2 s _ (Run.of_exec hs)
  exact ⟨s, of_decide_eq_true hend, (hsides .dequeue (by decide)).1⟩

/-! ## The remover that sleeps with the lock -/

section Asleep

variable {T α : Type*} [DecidableEq T] [DecidableEq α] {s s' : State T α} {l : Label T α}
  {t : T} {x : α}

omit [DecidableEq α] in
theorem holdsLock_afterCall (rc : Bool) (v : Pc α) :
    (afterCall rc v).holdsLock = v.holdsLock := by
  cases rc <;> cases v <;> rfl

omit [DecidableEq α] in
/-- Outside the lock and the semaphores a thread is idle or wants the lock. -/
theorem outside_cases {v : Pc α} (h : semCall v = none) (hv : v.holdsLock = false) :
    (∃ r, v = .idle r) ∨ (∃ x r, v = .enqueueLock x r) ∨ v = .dequeueLock ∨
      ∃ x, v = .removeLock x := by
  cases v <;> simp_all [semCall, Pc.holdsLock]

theorem exclusive_section {q q' : SharedQueue.State T α}
    (h : Exclusive Pc.holdsLock q.lock q.pc) (hq' : q.advance t = .ok q') :
    Exclusive Pc.holdsLock q'.lock q'.pc := by
  cases hpc : q.pc t with
  | enqueueLock _ _ | dequeueLock | removeLock _ =>
      simp only [SharedQueue.State.advance, SharedQueue.State.acquire, hpc] at hq'
      split at hq'
      · rename_i hlock
        cases hq'
        rw [hlock] at h
        exact h.acquire rfl
      · cases hq'
  | enqueueUnlock _ | dequeueUnlock _ =>
      simp only [SharedQueue.State.advance, hpc] at hq'
      cases hq'
      exact h.release (by rw [hpc]; rfl) rfl
  | removeUnlock _ removed =>
      simp only [SharedQueue.State.advance, hpc] at hq'
      split_ifs at hq'
      · cases hq'
        exact h.release (by rw [hpc]; rfl) rfl
      · cases hq'
        exact h.release (by rw [hpc]; rfl) rfl
  | _ =>
      simp only [SharedQueue.State.advance, hpc] at hq'
      repeat' split at hq'
      all_goals cases hq'
      all_goals exact h.move (by rw [hpc]; rfl)

theorem exclusive_step (h : Exclusive Pc.holdsLock s.lock s.pc) (hs' : s.step l = .ok s') :
    Exclusive Pc.holdsLock s'.lock s'.pc := by
  cases State.step_cases hs' with
  | @call t op r hpc => exact h.move (by rw [hpc]; cases op <;> rfl)
  | enter => exact h
  | inner => exact h
  | leave => exact h.move (holdsLock_afterCall _ _)
  | @inList t q hcall hq => exact exclusive_section (q := s.plain) h hq

/-- The thread `t` sleeps inside `fixed_queue_try_remove_from_queue`, and no thread is
about to post an element. -/
structure Asleep (x : α) (t : T) (s : State T α) : Prop where
  calling : s.Calling
  exclusive : Exclusive Pc.holdsLock s.lock s.pc
  pc : s.pc t = .removeTryWait x
  asleep : ∃ flags, (s.sem .dequeue).pc t = .tryBlocked flags
  empty : (s.sem .dequeue).counter = 0
  no_post : ∀ u r, s.pc u ≠ .enqueuePost r

namespace Asleep

omit [DecidableEq T] [DecidableEq α] in
theorem lock (h : Asleep x t s) : s.lock = some t :=
  (h.exclusive t).mp (by rw [h.pc]; rfl)

omit [DecidableEq T] [DecidableEq α] in
theorem others (h : Asleep x t s) {u : T} (hu : u ≠ t) : (s.pc u).holdsLock = false := by
  cases hholds : (s.pc u).holdsLock with
  | false => rfl
  | true => exact absurd (h.exclusive.unique hholds (by rw [h.pc]; rfl)) hu

theorem blocked (h : Asleep x t s) : s.step (.run t) = .error .blocked := by
  obtain ⟨flags, hasleep⟩ := h.asleep
  have hsem : (s.sem .dequeue).step (.run t) = .error .blocked := by
    simp [Semaphore.State.step, Semaphore.State.advance, hasleep, h.empty]
  simp [State.step, State.advance, h.pc, semCall, hasleep, State.onSemaphore, hsem,
    ofSemaphore]

omit [DecidableEq α] in
/-- A system call of another thread leaves the sleeper and the empty counter. -/
theorem advance (h : Asleep x t s) {u : T} (hu : u ≠ t) {side : Side} {op : Semaphore.Op}
    {m : Semaphore.State T} (hcall : semCall (s.pc u) = some (side, op))
    (hbusy : (s.sem side).pc u ≠ .idle) (hm : (s.sem side).advance u = .ok m) :
    (∃ flags, ((s.setSem side m).sem .dequeue).pc t = .tryBlocked flags) ∧
      ((s.setSem side m).sem .dequeue).counter = 0 := by
  obtain ⟨flags, hasleep⟩ := h.asleep
  obtain ⟨v, hv, -⟩ := Semaphore.advance_op hm
  cases side with
  | enqueue => exact ⟨⟨flags, hasleep⟩, h.empty⟩
  | dequeue =>
      have hop := h.calling.op hcall hbusy
      refine ⟨⟨flags, ?_⟩, ?_⟩
      · simp [State.setSem, hv, Ne.symm hu, hasleep]
      · refine Semaphore.advance_empty ?_ h.empty hm
        intro hpost
        rw [hop] at hpost
        cases hpost
        cases hpc : s.pc u with
        | enqueuePost r => exact h.no_post u r hpc
        | _ => simp [hpc, semCall] at hcall

theorem step (h : Asleep x t s) (hs' : s.step l = .ok s') :
    Asleep x t s' ∧ s'.list = s.list := by
  have hcalling := h.calling.step hs'
  have hexclusive := exclusive_step h.exclusive hs'
  have hmover : ∀ u, l = .run u → u ≠ t := by
    rintro u rfl rfl
    rw [h.blocked] at hs'
    cases hs'
  obtain ⟨flags, hasleep⟩ := h.asleep
  cases State.step_cases hs' with
  | @call u op r hpc =>
      have hut : t ≠ u := by
        rintro rfl
        rw [h.pc] at hpc
        cases hpc
      refine ⟨⟨hcalling, hexclusive, ?_, ⟨flags, hasleep⟩, h.empty, ?_⟩, rfl⟩
      · exact (Function.update_of_ne hut _ _).trans h.pc
      · intro w r hw
        rcases update_cases id hw rfl with ⟨-, hentry⟩ | ⟨-, hsame⟩
        · cases op <;> cases hentry
        · exact h.no_post w r hsame
  | @enter u side op hcall hidle =>
      have hut : t ≠ u := (hmover u rfl).symm
      refine ⟨⟨hcalling, hexclusive, h.pc, ?_, ?_, h.no_post⟩, rfl⟩
      · cases side with
        | enqueue => exact ⟨flags, hasleep⟩
        | dequeue =>
            exact ⟨flags, (Function.update_of_ne hut _ _).trans hasleep⟩
      · cases side with
        | enqueue => exact h.empty
        | dequeue => exact h.empty
  | @inner u side op m hcall hbusy hm hstay =>
      obtain ⟨hsleep, hempty⟩ := h.advance (hmover u rfl) hcall hbusy hm
      exact ⟨⟨hcalling, hexclusive, h.pc, hsleep, hempty, h.no_post⟩, rfl⟩
  | @leave u side op m hcall hbusy hm hdone =>
      have hut := hmover u rfl
      obtain ⟨hsleep, hempty⟩ := h.advance hut hcall hbusy hm
      refine ⟨⟨hcalling, hexclusive, ?_, hsleep, hempty, ?_⟩, rfl⟩
      · exact (Function.update_of_ne hut.symm _ _).trans h.pc
      · intro w r hw
        rcases update_cases id hw rfl with ⟨-, hafter⟩ | ⟨-, hsame⟩
        · have hnone := State.semCall_afterCall (returned ((s.sem side).pc u)) (s.pc u)
          rw [show afterCall _ (s.pc u) = _ from hafter] at hnone
          cases hnone
        · exact h.no_post w r hsame
  | @inList u q hcall hq =>
      -- without the lock there is nothing to do but wait for it
      have hholds := h.others (hmover u rfl)
      have hlock : s.plain.lock = some t := h.lock
      rcases outside_cases hcall hholds with
        ⟨r, hpc⟩ | ⟨y, r, hpc⟩ | hpc | ⟨y, hpc⟩
      · simp [SharedQueue.State.advance, show s.plain.pc u = _ from hpc] at hq
      all_goals simp [SharedQueue.State.advance, SharedQueue.State.acquire,
        show s.plain.pc u = _ from hpc, hlock] at hq

end Asleep

end Asleep

/-- A `fixed_queue_try_remove_from_queue` that sleeps in its `semaphore_try_wait` while no
enqueuer has an element to post never returns: whatever the other threads do, it keeps the
lock and the list stays as it is. -/
theorem remover_sleeps_forever {T α : Type*} [DecidableEq T] [DecidableEq α]
    (capacity : UInt64) (s s' : State T α) (t : T) (x : α) (flags : UInt32)
    (h : Reachable (Next State.step) (State.init capacity) s)
    (hpc : s.pc t = .removeTryWait x)
    (hasleep : (s.sem .dequeue).pc t = .tryBlocked flags)
    (hempty : (s.sem .dequeue).counter = 0) (hpost : ∀ u r, s.pc u ≠ .enqueuePost r)
    (h' : Reachable (Next State.step) s s') :
    s'.step (.run t) = .error .blocked ∧ s'.lock = some t ∧ s'.list = s.list := by
  have hcalling : s.Calling :=
    h.invariant (fun _ _ _ hs hstep => hs.step hstep) (State.calling_init capacity)
  have hexclusive : Exclusive Pc.holdsLock s.lock s.pc :=
    h.invariant (I := fun s => Exclusive Pc.holdsLock s.lock s.pc)
      (fun _ _ _ hs hstep => exclusive_step hs hstep)
      (by intro u; simp [State.init, Pc.holdsLock])
  have hs : Asleep x t s := ⟨hcalling, hexclusive, hpc, ⟨flags, hasleep⟩, hempty, hpost⟩
  have hend : Asleep x t s' ∧ s'.list = s.list := by
    refine h'.invariant (I := fun s' => Asleep x t s' ∧ s'.list = s.list) ?_ ⟨hs, rfl⟩
    rintro s₁ l s₂ ⟨hs₁, hlist⟩ hstep
    obtain ⟨hs₂, hsame⟩ := hs₁.step hstep
    exact ⟨hs₂, hsame.trans hlist⟩
  exact ⟨hend.1.blocked, hend.1.lock, hend.2⟩

/-- The only element has lost its token to a dequeuer whose `F_SETFL` clears
`O_NONBLOCK` between the `F_SETFL` and the `eventfd_read` of the remover. -/
def removeDuringDequeue : List (Label Bool ℕ) :=
  [.call false (.enqueue 8), .run false, .run false, .run false, .run false, .run false,
    .run false, .run false, .call true .tryDequeue, .run true, .run true, .run true,
    .run true, .call false (.tryRemoveFromQueue 8), .run false, .run false, .run false,
    .run false, .run false, .run true, .run false]

theorem remover_sleeps_forever_removeDuringDequeue :
    ∃ s : State Bool ℕ, s.pc true = .dequeueLock ∧ s.list.length = 1 ∧
      ∀ s', Reachable (Next State.step) s s' →
        s'.step (.run false) = .error .blocked ∧ s'.lock = some false ∧ s'.list = s.list := by
  have hend : ((exec (fun _ _ => true) State.step (State.init 2) removeDuringDequeue).any
      fun s => decide (s.pc true = .dequeueLock ∧ s.list.length = 1 ∧
        s.pc false = .removeTryWait 8 ∧ (s.sem .dequeue).pc false = .tryBlocked 0x802 ∧
        (s.sem .dequeue).counter = 0)) = true := by
    decide +kernel
  obtain ⟨s, hs, hend⟩ := (Option.any_eq_true _ _).mp hend
  obtain ⟨htrue, hlength, hfalse, hasleep, hempty⟩ := of_decide_eq_true hend
  refine ⟨s, htrue, hlength, ?_⟩
  intro s' hs'
  refine remover_sleeps_forever 2 s s' false 8 0x802 (Reachable.of_exec_true hs) hfalse hasleep
    hempty ?_ hs'
  intro u r
  cases u with
  | false => rw [hfalse]; simp
  | true => rw [htrue]; simp

end EventfdQueue

end Osi
