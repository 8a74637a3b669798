import Osi.Alarm.KernelCalls
import Osi.Alarm.Wakelock

/-!
# Initialization and cleanup

The static variables of `alarm.c` outlive `alarm_cleanup`. A `Module` is either
unloaded (`alarms == NULL`) or loaded, and then it runs a `System`; the steps
are those of the system, `lazy_initialize` with its error paths, and
`alarm_cleanup`, which tells the dispatcher to exit, joins the threads and then
drops the rest. While it waits for the threads the other steps go on.

`alarm_cleanup` neither assigns `timer_set` nor releases the wakelock, it does
not delete `wakeup_timer`, and its `timer_delete(&timer)` passes the address of
the variable where the error path of `lazy_initialize` passes the variable. So
every run of the module leaves two timers behind, and a run that ends with
`timer_set` changes what the next one calls.
-/

namespace Osi

namespace Alarm

open Transition

/-- A value of type `timer_t`: one that `timer_create` has stored, or the
address of one of the two variables. -/
inductive TimerId
  | created (n : ℕ)
  | address (v : TimerVar)
  deriving DecidableEq, Repr

/-- A timer that was created and not deleted. -/
structure KernelTimer where
  id : TimerId
  armed : Timer
  deriving DecidableEq, Repr

def KernelTimer.expire (id : TimerId) (t : KernelTimer) : KernelTimer :=
  if t.id = id then { t with armed := none } else t

/-- What is left of the module while `alarms` is `NULL`: the variable
`timer_set`, the record of the wakelock calls and the timers that were not
deleted. `nextTimer` is the kernel's. -/
structure Statics where
  timerSet : Bool
  wakelock : List WakelockEvent
  timers : List KernelTimer
  nextTimer : ℕ
  deriving DecidableEq, Repr

inductive InitFailure
  | alarms
  | timer
  | wakeupTimer
  | alarmExpired
  | defaultCallbackThread
  | defaultCallbackQueue
  | dispatcherThread
  deriving DecidableEq, Repr

/-- What happens during `lazy_initialize`, and the kinds of the alarms and the
capacities of the queues that the new run uses. -/
structure InitEnv where
  failure : Option InitFailure
  isPeriodic : AlarmPtr → Bool
  capacity : QueuePtr → UInt64

inductive Stage
  | running
  /-- `dispatcher_thread_active` is false and the dispatcher still there -/
  | stopping
  /-- the dispatcher has left its loop -/
  | stopped
  deriving DecidableEq, Repr

/-- The module after `lazy_initialize`. The timers `timer` and `wakeup_timer`
are those of `sys`; `timers` are those of earlier runs. -/
structure Loaded where
  sys : System
  timer : TimerId
  wakeupTimer : TimerId
  timers : List KernelTimer
  nextTimer : ℕ
  stage : Stage

inductive Module
  | unloaded (st : Statics)
  | loaded (m : Loaded)

inductive ModuleLabel
  | lazyInitialize (env : InitEnv)
  | run (l : Label)
  /-- `alarm_cleanup` up to the point where it waits for the dispatcher -/
  | alarmCleanup
  /-- the dispatcher sees that it is not active and leaves its loop -/
  | dispatcherExit
  /-- the rest of `alarm_cleanup` -/
  | cleanupReturn
  /-- a timer of an earlier run expires at the kernel time `k` -/
  | expireEarlier (id : TimerId) (k : PeriodMs)

def defaultCallbackThread : Tid := 0

namespace Statics

def fresh : Statics := ⟨false, [], [], 0⟩

def timerCreate (st : Statics) : TimerId × Statics :=
  (.created st.nextTimer,
    { st with
      timers := st.timers ++ [⟨.created st.nextTimer, none⟩]
      nextTimer := st.nextTimer + 1 })

/-- `timer_delete`; it fails without effect if there is no such timer. -/
def timerDelete (st : Statics) (id : TimerId) : Statics :=
  { st with timers := st.timers.filter fun t => t.id ≠ id }

/-- The system that the next `lazy_initialize` starts. -/
def start (st : Statics) (isPeriodic : AlarmPtr → Bool) (capacity : QueuePtr → UInt64) :
    System :=
  { System.init isPeriodic capacity with
    mod := { AlarmState.init isPeriodic capacity with
      timerSet := st.timerSet
      wakelock := st.wakelock } }

def lazyInitialize (st : Statics) (env : InitEnv) : Module :=
  match env.failure with
  | some .alarms | some .timer => .unloaded st
  | some .wakeupTimer =>
      let (timer, st) := st.timerCreate
      .unloaded (st.timerDelete timer)
  | some .alarmExpired | some .defaultCallbackThread | some .defaultCallbackQueue
  | some .dispatcherThread =>
      let (timer, st) := st.timerCreate
      let (wakeupTimer, st) := st.timerCreate
      .unloaded ((st.timerDelete wakeupTimer).timerDelete timer)
  | none =>
      let (timer, st₁) := st.timerCreate
      let (wakeupTimer, st₂) := st₁.timerCreate
      .loaded
        { sys := st.start env.isPeriodic env.capacity
          timer := timer
          wakeupTimer := wakeupTimer
          timers := st.timers
          nextTimer := st₂.nextTimer
          stage := .running }

end Statics

namespace Loaded

/-- The end of `alarm_cleanup`, after the threads are joined. -/
def cleanupReturn (m : Loaded) : Statics :=
  let st : Statics :=
    { timerSet := m.sys.mod.timerSet
      wakelock := m.sys.mod.wakelock
      timers := m.timers ++
        [⟨m.timer, m.sys.mod.timer⟩, ⟨m.wakeupTimer, m.sys.mod.wakeupTimer⟩]
      nextTimer := m.nextTimer }
  st.timerDelete (.address .timer)

def post (m : Loaded) : Loaded :=
  { m with sys := { m.sys with
      mod := { m.sys.mod with alarmExpired := m.sys.mod.alarmExpired + 1 } } }

/-- The dispatcher leaves its loop, in the test of `dispatcher_thread_active`
that follows `semaphore_wait`. -/
def dispatcherExit (m : Loaded) : Except Fault Loaded :=
  match m.sys.dispatcher with
  | .waiting =>
      if m.sys.mod.alarmExpired = 0 then .error .blocked
      else
        .ok { m with
          sys := { m.sys with
            mod := { m.sys.mod with alarmExpired := m.sys.mod.alarmExpired - 1 } }
          stage := .stopped }
  | .token => .ok { m with sys := { m.sys with dispatcher := .waiting }, stage := .stopped }
  | .enqueue _ => .error .notEnabled

end Loaded

namespace Module

def expiresIn (timers : List KernelTimer) (id : TimerId) (k : PeriodMs) : Bool :=
  timers.any fun t => t.id = id ∧ System.expires t.armed k

def step : Module → ModuleLabel → Except Fault Module
  | .unloaded st, .lazyInitialize env => .ok (st.lazyInitialize env)
  | .unloaded st, .alarmCleanup => .ok (.unloaded st)
  | .unloaded st, .expireEarlier id k =>
      -- `timer_callback` posts to the semaphore `NULL`
      if expiresIn st.timers id k then .error .assertion else .error .notEnabled
  | .unloaded _, .run _ => .error .assertion
  | .unloaded _, .dispatcherExit | .unloaded _, .cleanupReturn => .error .notEnabled
  | .loaded _, .lazyInitialize _ => .error .assertion
  | .loaded m, .run l =>
      -- a dispatcher that takes a token after the call of `alarm_cleanup` exits
      if m.stage ≠ .running ∧ l = .take then .error .notEnabled
      else
        match m.sys.step l with
        | .ok sys => .ok (.loaded { m with sys := sys })
        | .error e => .error e
  | .loaded m, .alarmCleanup =>
      if m.stage = .running then .ok (.loaded { m with stage := .stopping }.post)
      else .error .notEnabled
  | .loaded m, .dispatcherExit =>
      if m.stage = .stopping then
        match m.dispatcherExit with
        | .ok m => .ok (.loaded m)
        | .error e => .error e
      else .error .notEnabled
  | .loaded m, .cleanupReturn =>
      if m.stage ≠ .stopped then .error .notEnabled
      else if m.sys.consumer defaultCallbackThread ≠ .idle then .error .blocked
      else .ok (.unloaded m.cleanupReturn)
  | .loaded m, .expireEarlier id k =>
      if expiresIn m.timers id k then
        .ok (.loaded { m with timers := m.timers.map (KernelTimer.expire id) }.post)
      else .error .notEnabled

def timerSet : Module → Bool
  | unloaded st => st.timerSet
  | loaded m => m.sys.mod.timerSet

end Module

/-! ## The timers that are left -/

def Created (timers : List KernelTimer) (nextTimer : ℕ) : Prop :=
  ∀ t ∈ timers, ∃ k < nextTimer, t.id = .created k

theorem KernelTimer.expire_id (id : TimerId) (t : KernelTimer) :
    (t.expire id).id = t.id := by
  unfold expire
  split_ifs <;> rfl

theorem Created.expire {timers : List KernelTimer} {nextTimer : ℕ}
    (h : Created timers nextTimer) (id : TimerId) :
    Created (timers.map (KernelTimer.expire id)) nextTimer := by
  intro t ht
  obtain ⟨t', ht', rfl⟩ := List.mem_map.mp ht
  rw [KernelTimer.expire_id]
  exact h t' ht'

theorem Created.mono {timers : List KernelTimer} {n n' : ℕ} (h : Created timers n)
    (hle : n ≤ n') : Created timers n' := by
  intro t ht
  obtain ⟨k, hk, hid⟩ := h t ht
  exact ⟨k, hk.trans_le hle, hid⟩

theorem Created.concat {timers : List KernelTimer} {n : ℕ} (h : Created timers n)
    (armed : Timer) : Created (timers ++ [⟨.created n, armed⟩]) (n + 1) := by
  intro t ht
  rcases List.mem_append.mp ht with ht | ht
  · exact h.mono n.le_succ t ht
  · rw [List.mem_singleton.mp ht]
    exact ⟨n, n.lt_succ_self, rfl⟩

/-- A timer that is deleted right after it was created leaves nothing. -/
theorem Created.filter_concat {timers : List KernelTimer} {n : ℕ} (h : Created timers n)
    (armed : Timer) :
    (timers ++ [(⟨.created n, armed⟩ : KernelTimer)]).filter
      (fun t => t.id ≠ .created n) = timers := by
  have hold : timers.filter (fun t => t.id ≠ .created n) = timers := by
    rw [List.filter_eq_self]
    intro t ht
    obtain ⟨k, hk, hid⟩ := h t ht
    refine decide_eq_true ?_
    rw [hid]
    intro heq
    exact absurd (TimerId.created.inj heq) hk.ne
  rw [List.filter_append, hold]
  simp

/-- `timer_delete` of an address deletes nothing. -/
theorem Created.filter_address {timers : List KernelTimer} {n : ℕ} (h : Created timers n)
    (v : TimerVar) : timers.filter (fun t => t.id ≠ .address v) = timers := by
  rw [List.filter_eq_self]
  intro t ht
  obtain ⟨k, -, hid⟩ := h t ht
  refine decide_eq_true ?_
  rw [hid]
  exact TimerId.noConfusion

/-- An initialization that fails leaves the static variables and the timers as
they were. -/
theorem Statics.lazyInitialize_of_failure {st : Statics} {env : InitEnv}
    (h : Created st.timers st.nextTimer) (hfailure : env.failure ≠ none) :
    ∃ n, st.nextTimer ≤ n ∧
      st.lazyInitialize env = .unloaded { st with nextTimer := n } := by
  cases hcase : env.failure with
  | none => exact absurd hcase hfailure
  | some failure =>
      unfold lazyInitialize
      rw [hcase]
      cases failure with
      | alarms | timer => exact ⟨st.nextTimer, le_rfl, rfl⟩
      | wakeupTimer =>
          refine ⟨st.nextTimer + 1, Nat.le_succ _, ?_⟩
          exact congrArg (fun ts => Module.unloaded { st with
            timers := ts, nextTimer := st.nextTimer + 1 }) (h.filter_concat none)
      | alarmExpired | defaultCallbackThread | defaultCallbackQueue | dispatcherThread =>
          refine ⟨st.nextTimer + 1 + 1, by omega, ?_⟩
          refine congrArg (fun ts => Module.unloaded { st with
            timers := ts, nextTimer := st.nextTimer + 1 + 1 }) ?_
          change (((st.timers ++ [_]) ++ [_]).filter _).filter _ = st.timers
          rw [(h.concat none).filter_concat none]
          exact h.filter_concat none

def ModuleLabel.initializes : ModuleLabel → Bool
  | lazyInitialize env => env.failure = none
  | _ => false

/-- After `n` initializations two timers of each are left, those of the current
run included. -/
inductive Counted (n : ℕ) : Module → Prop
  | unloaded {st : Statics} (hids : Created st.timers st.nextTimer)
      (hlength : st.timers.length = 2 * n)
      (hfresh : n = 0 → st.timerSet = false ∧ st.wakelock = []) :
      Counted n (.unloaded st)
  | loaded {m : Loaded} (hids : Created m.timers m.nextTimer)
      (htimer : ∃ k < m.nextTimer, m.timer = .created k)
      (hwakeup : ∃ k < m.nextTimer, m.wakeupTimer = .created k)
      (hlength : m.timers.length + 2 = 2 * n) : Counted n (.loaded m)

namespace Counted

variable {n : ℕ}

theorem lazyInitialize {st : Statics} (h : Counted n (.unloaded st)) (env : InitEnv) :
    Counted (if env.failure = none then n + 1 else n) (st.lazyInitialize env) := by
  obtain ⟨hids, hlength, hfresh⟩ := h
  by_cases hfailure : env.failure = none
  · rw [if_pos hfailure]
    simp only [Statics.lazyInitialize, hfailure]
    refine .loaded (hids.mono ?_) ⟨st.nextTimer, ?_, rfl⟩ ⟨st.nextTimer + 1, ?_, rfl⟩ ?_
    · exact (Nat.le_succ _).trans (Nat.le_succ _)
    · exact (Nat.lt_succ_self _).trans (Nat.lt_succ_self _)
    · exact Nat.lt_succ_self _
    · change st.timers.length + 2 = 2 * (n + 1)
      omega
  · rw [if_neg hfailure]
    obtain ⟨k, hk, heq⟩ := Statics.lazyInitialize_of_failure hids hfailure
    rw [heq]
    exact .unloaded (hids.mono hk) hlength hfresh

theorem cleanupReturn {m : Loaded} (h : Counted n (.loaded m)) :
    Counted n (.unloaded m.cleanupReturn) := by
  rcases h with _ | ⟨hids, htimer, hwakeup, hlength⟩
  have hall : Created (m.timers ++
      [⟨m.timer, m.sys.mod.timer⟩, ⟨m.wakeupTimer, m.sys.mod.wakeupTimer⟩])
      m.nextTimer := by
    intro t ht
    rcases List.mem_append.mp ht with ht | ht
    · exact hids t ht
    · rcases List.mem_pair.mp ht with rfl | rfl
      · exact htimer
      · exact hwakeup
  have htimers : m.cleanupReturn.timers = m.timers ++
      [⟨m.timer, m.sys.mod.timer⟩, ⟨m.wakeupTimer, m.sys.mod.wakeupTimer⟩] :=
    hall.filter_address .timer
  refine .unloaded ?_ ?_ ?_
  · rw [htimers]
    exact hall
  · rw [htimers, List.length_append]
    exact hlength
  · omega

theorem step {m m' : Module} {l : ModuleLabel} (h : Counted n m)
    (hstep : m.step l = .ok m') : Counted (if l.initializes then n + 1 else n) m' := by
  cases m with
  | unloaded st =>
      cases l with
      | lazyInitialize env =>
          cases hstep
          simpa only [ModuleLabel.initializes, decide_eq_true_eq] using h.lazyInitialize env
      | alarmCleanup =>
          cases hstep
          exact h
      | expireEarlier id k =>
          simp only [Module.step] at hstep
          split_ifs at hstep
      | run | dispatcherExit | cleanupReturn => cases hstep
  | loaded m =>
      rcases h with _ | ⟨hids, htimer, hwakeup, hlength⟩
      cases l with
      | lazyInitialize env => cases hstep
      | run l =>
          simp only [Module.step] at hstep
          split_ifs at hstep
          split at hstep <;> cases hstep
          exact .loaded hids htimer hwakeup hlength
      | alarmCleanup =>
          simp only [Module.step] at hstep
          split_ifs at hstep
          cases hstep
          exact .loaded hids htimer hwakeup hlength
      | dispatcherExit =>
          simp only [Module.step] at hstep
          split_ifs at hstep
          split at hstep
          · rename_i m₁ hm₁
            cases hstep
            simp only [Loaded.dispatcherExit] at hm₁
            split at hm₁
            · split_ifs at hm₁
              cases hm₁
              exact .loaded hids htimer hwakeup hlength
            · cases hm₁
              exact .loaded hids htimer hwakeup hlength
            · cases hm₁
          · cases hstep
      | cleanupReturn =>
          simp only [Module.step] at hstep
          split_ifs at hstep
          cases hstep
          exact (Counted.loaded hids htimer hwakeup hlength).cleanupReturn
      | expireEarlier id k =>
          simp only [Module.step] at hstep
          split_ifs at hstep
          cases hstep
          refine .loaded (hids.expire id) htimer hwakeup ?_
          change (m.timers.map _).length + 2 = 2 * n
          rw [List.length_map]
          exact hlength

end Counted

end Alarm

end Osi
