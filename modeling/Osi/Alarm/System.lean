import Osi.Alarm.Definitions
import Osi.Transition.Run

/-!
# The alarm module as a system of threads

`System` is the alarm module together with the threads that work in it, seen at
the grain of its critical sections: clients that set and cancel alarms, the
dispatcher thread, the threads that serve the processing queues, and the kernel
that lets the timers expire. A step is one critical section, one call of an
alarm callback, or one action of the kernel; everything the kernel answers
during the step is in its label. The locks themselves are added in
`Alarm/Threads.lean`.

The iteration of the dispatcher is two steps, because `fixed_queue_enqueue` may
block while the monitor is held. In between no other section can run.

`clock` is the latest clock reading and `hist` the history of what has happened
to the alarms. No section of the code looks at either of them.
-/

namespace Osi

namespace Alarm

abbrev Tid := ℕ

inductive DispatcherPhase
  /-- in `semaphore_wait(alarm_expired)` -/
  | waiting
  /-- it has taken a token and not yet the monitor -/
  | token
  /-- in `fixed_queue_enqueue(alarm->queue, alarm)`, with the monitor held -/
  | enqueue (a : AlarmPtr)
  deriving DecidableEq, Repr

inductive ConsumerPhase
  | idle
  /-- it has dequeued an alarm and not yet called its callback -/
  | ready (i : Instance)
  /-- it is in the callback, called at the given time -/
  | running (i : Instance) (t0 : PeriodMs)
  deriving DecidableEq, Repr

inductive Event
  | set (r : SetArgs) (time deadline : PeriodMs)
  | cancel (a : AlarmPtr)
  /-- the dispatcher has put `a` in its queue -/
  | dispatch (a : AlarmPtr) (deadline : PeriodMs)
  | dequeue (t : Tid) (q : QueuePtr) (i : Instance)
  /-- the call `callback(data)` -/
  | invoke (t : Tid) (i : Instance) (time : PeriodMs)
  deriving DecidableEq, Repr

inductive Label
  | set (r : SetArgs) (env : SetEnv)
  | cancel (a : AlarmPtr) (env : RescheduleEnv)
  /-- the dispatcher returns from `semaphore_wait` -/
  | take
  | dispatch (env : DispatchEnv)
  | enqueue
  | dequeue (t : Tid) (q : QueuePtr)
  | invoke (t : Tid) (t0 : PeriodMs)
  | finish (t : Tid) (t1 : PeriodMs)
  /-- the timer expires at the kernel time `k` and `timer_callback` posts -/
  | expireTimer (k : PeriodMs)
  | expireWakeupTimer (k : PeriodMs)
  deriving DecidableEq, Repr

namespace Label

/-- The clock readings of a step, in program order. -/
def readings : Label → List PeriodMs
  | set _ env => [env.creationTime, env.schedule.now, env.schedule.reschedule.now]
  | cancel _ env => [env.now]
  | take => []
  | dispatch env =>
      [env.now, env.schedule.now, env.schedule.reschedule.now, env.reschedule.now]
  | enqueue => []
  | dequeue _ _ => []
  | invoke _ t0 => [t0]
  | finish _ t1 => [t1]
  | expireTimer k => [k]
  | expireWakeupTimer k => [k]

def reschedules : Label → List RescheduleEnv
  | set _ env => [env.schedule.reschedule]
  | cancel _ env => [env]
  | dispatch env => [env.schedule.reschedule, env.reschedule]
  | _ => []

end Label

structure System where
  mod : AlarmState
  dispatcher : DispatcherPhase
  consumer : Tid → ConsumerPhase
  clock : PeriodMs
  hist : List Event

namespace System

def init (isPeriodic : AlarmPtr → Bool) (capacity : QueuePtr → UInt64) : System where
  mod := AlarmState.init isPeriodic capacity
  dispatcher := .waiting
  consumer _ := .idle
  clock := 0
  hist := []

/-- The alarm that the dispatcher has taken from the list and not yet put in
its queue. -/
def inTransit (s : System) : Option AlarmPtr :=
  match s.dispatcher with
  | .enqueue a => some a
  | _ => none

/-- No critical section is in progress. -/
def Quiet (s : System) : Prop := s.inTransit = none

instance (s : System) : Decidable s.Quiet :=
  inferInstanceAs (Decidable (s.inTransit = none))

/-- The part of a step that only the history and the clock record. -/
def record (s : System) (l : Label) (es : List Event) : System :=
  { s with
    clock := l.readings.getLast?.getD s.clock
    hist := s.hist ++ es }

def expires (t : Timer) (k : PeriodMs) : Bool :=
  match t with
  | none => false
  | some value => value.toMs ≤ k.toNat

/-- One step. The sections of `alarm_set_internal`, `alarm_cancel` and
`alarm_queue_ready` wait for the monitor while the dispatcher holds it. -/
def step (s : System) (l : Label) : Except Fault System :=
  match l with
  | .set r env =>
      if ¬ s.Quiet then .error .blocked
      else
        match s.mod.alarmSetInternal r env with
        | .error e => .error e
        | .ok mod =>
            .ok <| { s with mod := mod }.record l
              [.set r env.creationTime (mod.alarm r.alarm).deadline]
  | .cancel a env =>
      if ¬ s.Quiet then .error .blocked
      else .ok <| { s with mod := s.mod.alarmCancel a env }.record l [.cancel a]
  | .take =>
      if s.dispatcher ≠ .waiting then .error .notEnabled
      else if s.mod.alarmExpired = 0 then .error .blocked
      else
        .ok <| { s with
          mod := { s.mod with alarmExpired := s.mod.alarmExpired - 1 }
          dispatcher := .token }.record l []
  | .dispatch env =>
      if s.dispatcher ≠ .token then .error .notEnabled
      else
        match s.mod.callbackDispatch env with
        | .error e => .error e
        | .ok (mod, none) =>
            .ok <| { s with mod := mod, dispatcher := .waiting }.record l []
        | .ok (mod, some a) =>
            .ok <| { s with mod := mod, dispatcher := .enqueue a }.record l []
  | .enqueue =>
      match s.dispatcher with
      | .enqueue a =>
          match s.mod.callbackDispatchEnqueue a with
          | .error e => .error e
          | .ok mod =>
              .ok <| { s with mod := mod, dispatcher := .waiting }.record l
                [.dispatch a (dispatchedDeadline (mod.alarm a))]
      | _ => .error .notEnabled
  | .dequeue t q =>
      if ¬ s.Quiet then .error .blocked
      else if s.consumer t ≠ .idle then .error .notEnabled
      else
        match s.mod.alarmQueueReady q with
        | (mod, none) => .ok <| { s with mod := mod }.record l []
        | (mod, some i) =>
            .ok <| { s with
              mod := mod
              consumer := Function.update s.consumer t (.ready i) }.record l
              [.dequeue t q i]
  | .invoke t t0 =>
      match s.consumer t with
      | .ready i =>
          .ok <| { s with
            consumer := Function.update s.consumer t (.running i t0) }.record l
            [.invoke t i t0]
      | _ => .error .notEnabled
  | .finish t t1 =>
      match s.consumer t with
      | .running i t0 =>
          if t1 < t0 then .error .assertion
          else
            .ok <| { s with
              mod := s.mod.modify i.alarm fun al =>
                { al with
                  stats := updateSchedulingStats al.stats t0 i.deadline (t1 - t0) }
              consumer := Function.update s.consumer t .idle }.record l []
      | _ => .error .notEnabled
  | .expireTimer k =>
      if expires s.mod.timer k then
        .ok <| { s with
          mod := { s.mod with
            timer := none
            alarmExpired := s.mod.alarmExpired + 1 } }.record l []
      else .error .notEnabled
  | .expireWakeupTimer k =>
      if expires s.mod.wakeupTimer k then
        .ok <| { s with
          mod := { s.mod with
            wakeupTimer := none
            alarmExpired := s.mod.alarmExpired + 1 } }.record l []
      else .error .notEnabled

/-- What a step can be: the section it runs, where the threads were before it
and what it leaves behind. -/
inductive StepCase (s : System) : Label → System → Prop
  | set {r : SetArgs} {env : SetEnv} {mod : AlarmState} (hquiet : s.Quiet)
      (hmod : s.mod.alarmSetInternal r env = .ok mod) :
      StepCase s (.set r env) ({ s with mod := mod }.record (.set r env)
        [.set r env.creationTime (mod.alarm r.alarm).deadline])
  | cancel {a : AlarmPtr} {env : RescheduleEnv} (hquiet : s.Quiet) :
      StepCase s (.cancel a env)
        ({ s with mod := s.mod.alarmCancel a env }.record (.cancel a env) [.cancel a])
  | take (hwaiting : s.dispatcher = .waiting) (htoken : s.mod.alarmExpired ≠ 0) :
      StepCase s .take ({ s with
        mod := { s.mod with alarmExpired := s.mod.alarmExpired - 1 }
        dispatcher := .token }.record .take [])
  | dispatchNone {env : DispatchEnv} {mod : AlarmState}
      (htoken : s.dispatcher = .token)
      (hmod : s.mod.callbackDispatch env = .ok (mod, none)) :
      StepCase s (.dispatch env)
        ({ s with mod := mod, dispatcher := .waiting }.record (.dispatch env) [])
  | dispatchSome {env : DispatchEnv} {mod : AlarmState} {a : AlarmPtr}
      (htoken : s.dispatcher = .token)
      (hmod : s.mod.callbackDispatch env = .ok (mod, some a)) :
      StepCase s (.dispatch env)
        ({ s with mod := mod, dispatcher := .enqueue a }.record (.dispatch env) [])
  | enqueue {a : AlarmPtr} {mod : AlarmState} (htransit : s.dispatcher = .enqueue a)
      (hmod : s.mod.callbackDispatchEnqueue a = .ok mod) :
      StepCase s .enqueue
        ({ s with mod := mod, dispatcher := .waiting }.record .enqueue
          [.dispatch a (dispatchedDeadline (mod.alarm a))])
  | dequeueNone {t : Tid} {q : QueuePtr} {mod : AlarmState} (hquiet : s.Quiet)
      (hidle : s.consumer t = .idle) (hmod : s.mod.alarmQueueReady q = (mod, none)) :
      StepCase s (.dequeue t q) ({ s with mod := mod }.record (.dequeue t q) [])
  | dequeueSome {t : Tid} {q : QueuePtr} {mod : AlarmState} {i : Instance}
      (hquiet : s.Quiet) (hidle : s.consumer t = .idle)
      (hmod : s.mod.alarmQueueReady q = (mod, some i)) :
      StepCase s (.dequeue t q) ({ s with
        mod := mod
        consumer := Function.update s.consumer t (.ready i) }.record (.dequeue t q)
        [.dequeue t q i])
  | invoke {t : Tid} {t0 : PeriodMs} {i : Instance} (hready : s.consumer t = .ready i) :
      StepCase s (.invoke t t0) ({ s with
        consumer := Function.update s.consumer t (.running i t0) }.record
        (.invoke t t0) [.invoke t i t0])
  | finish {t : Tid} {t1 t0 : PeriodMs} {i : Instance}
      (hrunning : s.consumer t = .running i t0) :
      StepCase s (.finish t t1) ({ s with
        mod := s.mod.modify i.alarm fun al =>
          { al with
            stats := updateSchedulingStats al.stats t0 i.deadline (t1 - t0) }
        consumer := Function.update s.consumer t .idle }.record (.finish t t1) [])
  | expireTimer {k : PeriodMs} (harmed : expires s.mod.timer k = true) :
      StepCase s (.expireTimer k) ({ s with
        mod := { s.mod with
          timer := none
          alarmExpired := s.mod.alarmExpired + 1 } }.record (.expireTimer k) [])
  | expireWakeupTimer {k : PeriodMs} (harmed : expires s.mod.wakeupTimer k = true) :
      StepCase s (.expireWakeupTimer k) ({ s with
        mod := { s.mod with
          wakeupTimer := none
          alarmExpired := s.mod.alarmExpired + 1 } }.record (.expireWakeupTimer k) [])

theorem step_cases {s s' : System} {l : Label} (h : s.step l = .ok s') :
    StepCase s l s' := by
  cases l with
  | set r env =>
      simp only [step] at h
      split_ifs at h with hquiet
      split at h
      · cases h
      · rename_i mod hmod
        cases h
        exact .set hquiet hmod
  | cancel a env =>
      simp only [step] at h
      split_ifs at h with hquiet
      cases h
      exact .cancel hquiet
  | take =>
      simp only [step] at h
      split_ifs at h with hwaiting htoken
      cases h
      exact .take (not_not.mp hwaiting) htoken
  | dispatch env =>
      simp only [step] at h
      split_ifs at h with htoken
      split at h
      · cases h
      · rename_i mod hmod
        cases h
        exact .dispatchNone (not_not.mp htoken) hmod
      · rename_i mod a hmod
        cases h
        exact .dispatchSome (not_not.mp htoken) hmod
  | enqueue =>
      simp only [step] at h
      split at h
      · rename_i a htransit
        split at h
        · cases h
        · rename_i mod hmod
          cases h
          exact .enqueue htransit hmod
      · cases h
  | dequeue t q =>
      simp only [step] at h
      split_ifs at h with hquiet hidle
      split at h
      · rename_i mod hmod
        cases h
        exact .dequeueNone hquiet (not_not.mp hidle) hmod
      · rename_i mod i hmod
        cases h
        exact .dequeueSome hquiet (not_not.mp hidle) hmod
  | invoke t t0 =>
      simp only [step] at h
      split at h
      · rename_i i hready
        cases h
        exact .invoke hready
      · cases h
  | finish t t1 =>
      simp only [step] at h
      split at h
      · rename_i i t0 hrunning
        split_ifs at h
        cases h
        exact .finish hrunning
      · cases h
  | expireTimer k =>
      simp only [step] at h
      split_ifs at h with harmed
      cases h
      exact .expireTimer harmed
  | expireWakeupTimer k =>
      simp only [step] at h
      split_ifs at h with harmed
      cases h
      exact .expireWakeupTimer harmed

@[simp] theorem record_mod (s : System) (l : Label) (es : List Event) :
    (s.record l es).mod = s.mod := rfl

@[simp] theorem record_dispatcher (s : System) (l : Label) (es : List Event) :
    (s.record l es).dispatcher = s.dispatcher := rfl

@[simp] theorem record_consumer (s : System) (l : Label) (es : List Event) :
    (s.record l es).consumer = s.consumer := rfl

@[simp] theorem record_hist (s : System) (l : Label) (es : List Event) :
    (s.record l es).hist = s.hist ++ es := rfl

@[simp] theorem record_clock (s : System) (l : Label) (es : List Event) :
    (s.record l es).clock = l.readings.getLast?.getD s.clock := rfl

/-! ## Conditions on runs -/

def OneQueue (home : AlarmPtr → QueuePtr) (_ : System) : Label → Prop
  | .set r _ => r.queue = home r.alarm
  | _ => True

instance (home : AlarmPtr → QueuePtr) (s : System) (l : Label) :
    Decidable (OneQueue home s l) :=
  match l with
  | .set r _ => inferInstanceAs (Decidable (r.queue = home r.alarm))
  | .cancel _ _ | .take | .dispatch _ | .enqueue | .dequeue _ _ | .invoke _ _
  | .finish _ _ | .expireTimer _ | .expireWakeupTimer _ => isTrue trivial

/-- The clock does not go back. -/
def ClockMonotone (s : System) (l : Label) : Prop :=
  (s.clock :: l.readings).Pairwise (· ≤ ·)

instance (s : System) (l : Label) : Decidable (ClockMonotone s l) :=
  inferInstanceAs (Decidable ((s.clock :: l.readings).Pairwise (· ≤ ·)))

/-- `p alarm justNow` for every call of `schedule_next_instance` that the step
makes, on the alarm and at the time it makes it. -/
def Scheduling (p : AlarmT → PeriodMs → Prop) (m : AlarmState) : Label → Prop
  | .set r env => p (assigned (m.alarm r.alarm) r env) env.schedule.now
  | .dispatch env =>
      match m.alarms with
      | [] => True
      | a :: _ =>
          (m.alarm a).isPeriodic = true → (m.alarm a).deadline ≤ env.now →
            p (m.alarm a) env.schedule.now
  | _ => True

instance (p : AlarmT → PeriodMs → Prop) [∀ alarm t, Decidable (p alarm t)]
    (m : AlarmState) (l : Label) : Decidable (Scheduling p m l) :=
  match l with
  | .set r env =>
      inferInstanceAs (Decidable (p (assigned (m.alarm r.alarm) r env) env.schedule.now))
  | .dispatch env =>
      match h : m.alarms with
      | [] => isTrue (by simp [Scheduling, h])
      | a :: _ =>
          decidable_of_iff
            ((m.alarm a).isPeriodic = true → (m.alarm a).deadline ≤ env.now →
              p (m.alarm a) env.schedule.now)
            (by simp [Scheduling, h])
  | .cancel _ _ | .take | .enqueue | .dequeue _ _ | .invoke _ _
  | .finish _ _ | .expireTimer _ | .expireWakeupTimer _ => isTrue trivial

/-- The sum `just_now + (period - ms_into_period)` does not wrap. -/
def DeadlineFits (alarm : AlarmT) (justNow : PeriodMs) : Prop :=
  justNow.toNat + (alarm.period - msIntoPeriod alarm justNow).toNat < 2 ^ 64

instance (alarm : AlarmT) (justNow : PeriodMs) :
    Decidable (DeadlineFits alarm justNow) :=
  inferInstanceAs (Decidable (_ < _))

/-- No deadline computation wraps. -/
def NoWrap (s : System) (l : Label) : Prop := Scheduling DeadlineFits s.mod l

instance (s : System) (l : Label) : Decidable (NoWrap s l) :=
  inferInstanceAs (Decidable (Scheduling DeadlineFits s.mod l))

def NonzeroDeadlines (s : System) (l : Label) : Prop :=
  Scheduling (fun alarm justNow => nextDeadline alarm justNow ≠ 0) s.mod l

instance (s : System) (l : Label) : Decidable (NonzeroDeadlines s l) :=
  inferInstanceAs
    (Decidable (Scheduling (fun alarm justNow => nextDeadline alarm justNow ≠ 0) s.mod l))

def ClockPositive (_ : System) (l : Label) : Prop := ∀ t ∈ l.readings, 0 < t

instance (s : System) (l : Label) : Decidable (ClockPositive s l) :=
  List.decidableBAll (fun t => 0 < t) l.readings

def WakelockSucceeds (_ : System) (l : Label) : Prop :=
  ∀ env ∈ l.reschedules, env.wakelockAcquire = true

instance (s : System) (l : Label) : Decidable (WakelockSucceeds s l) :=
  inferInstanceAs (Decidable (∀ env ∈ l.reschedules, env.wakelockAcquire = true))

/-- `reschedule_root_alarm` looks with `timer_gettime` at `timer` only, so a notification
that `wakeup_timer` drops is seen by nobody. It is armed for a time at least
`TIMER_INTERVAL_FOR_WAKELOCK_IN_MS` ahead. -/
def WakeupNotifies (_ : System) (l : Label) : Prop :=
  ∀ env ∈ l.reschedules, env.wakeupOutcome ≠ .dropped

instance (s : System) (l : Label) : Decidable (WakeupNotifies s l) :=
  inferInstanceAs (Decidable (∀ env ∈ l.reschedules, env.wakeupOutcome ≠ .dropped))

end System

/-! ## A kernel for examples

It answers every clock reading of a step with one time, grants the wakelock and
leaves the timers armed. -/

def kernelAt (t : PeriodMs) : RescheduleEnv := ⟨t, true, .armed, .armed⟩

def setAt (t : PeriodMs) : SetEnv := ⟨t, t, kernelAt t⟩

def dispatchAt (t : PeriodMs) : DispatchEnv := ⟨t, ⟨t, kernelAt t⟩, kernelAt t⟩

end Alarm

end Osi
