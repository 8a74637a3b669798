import Osi.FixedQueue.Basic
import Mathlib.Logic.Function.Basic

/-!
# The alarm module

The data of `alarm.c` and its functions, each cut where the monitor is taken
and released: the part of `alarm_set_internal`, `alarm_cancel`,
`callback_dispatch` and `alarm_queue_ready` that runs with the monitor held is
one function on `AlarmState`. What the code asks of the kernel during such a
section (clock readings, the answer of `wakelock_acquire`, what becomes of a
timer between `timer_settime` and `timer_gettime`) is an argument, so the
functions are total in the kernel's behaviour and can be evaluated.

Times are `period_ms_t`, that is `uint64_t`, and wrap around as in C.
Pointers are natural numbers; `alarm->callback` and `alarm->queue` are optional
because the code compares them with `NULL`.
-/

namespace Osi

namespace Alarm

abbrev PeriodMs := UInt64

abbrev AlarmPtr := ℕ

abbrev QueuePtr := ℕ

abbrev CallbackPtr := ℕ

/-- `void *data`; `NULL` is `0`. -/
abbrev DataPtr := ℕ

/-- What stops a section instead of letting it return. -/
inductive Fault
  /-- the `%` of `schedule_next_instance` with a zero period -/
  | divisionByZero
  /-- an `assert` of the code fails -/
  | assertion
  /-- the thread waits on a semaphore or a mutex -/
  | blocked
  /-- the thread is not at the point of the program the label belongs to -/
  | notEnabled
  deriving DecidableEq, Repr

/-! ## Statistics -/

structure Stat where
  count : UInt64
  totalMs : PeriodMs
  maxMs : PeriodMs
  deriving DecidableEq, Repr

/-- `alarm_stats_t`, without the name. -/
structure AlarmStats where
  scheduledCount : UInt64
  canceledCount : UInt64
  rescheduledCount : UInt64
  totalUpdates : UInt64
  lastUpdateMs : PeriodMs
  callbackExecution : Stat
  overdueScheduling : Stat
  prematureScheduling : Stat
  deriving DecidableEq, Repr

def Stat.zero : Stat := ⟨0, 0, 0⟩

def AlarmStats.zero : AlarmStats :=
  ⟨0, 0, 0, 0, 0, Stat.zero, Stat.zero, Stat.zero⟩

def updateStat (stat : Stat) (delta : PeriodMs) : Stat where
  count := stat.count + 1
  totalMs := stat.totalMs + delta
  maxMs := if stat.maxMs < delta then delta else stat.maxMs

def updateSchedulingStats (stats : AlarmStats)
    (nowMs deadlineMs executionDeltaMs : PeriodMs) : AlarmStats :=
  let stats :=
    { stats with
      totalUpdates := stats.totalUpdates + 1
      lastUpdateMs := nowMs
      callbackExecution := updateStat stats.callbackExecution executionDeltaMs }
  if deadlineMs < nowMs then
    { stats with
      overdueScheduling := updateStat stats.overdueScheduling (nowMs - deadlineMs) }
  else if nowMs < deadlineMs then
    { stats with
      prematureScheduling :=
        updateStat stats.prematureScheduling (deadlineMs - nowMs) }
  else stats

/-! ## Alarms -/

/-- `alarm_t`, without its `callback_lock`, which belongs to
`Alarm/Threads.lean`. -/
structure AlarmT where
  creationTime : PeriodMs
  period : PeriodMs
  deadline : PeriodMs
  prevDeadline : PeriodMs
  isPeriodic : Bool
  queue : Option QueuePtr
  callback : Option CallbackPtr
  data : DataPtr
  stats : AlarmStats
  deriving DecidableEq, Repr

def alarmNewInternal (isPeriodic : Bool) : AlarmT :=
  ⟨0, 0, 0, 0, isPeriodic, none, none, 0, AlarmStats.zero⟩

def alarmIsScheduled (alarm : AlarmT) : Bool := alarm.callback.isSome

def msIntoPeriod (alarm : AlarmT) (justNow : PeriodMs) : PeriodMs :=
  if alarm.isPeriodic then (justNow - alarm.creationTime) % alarm.period else 0

def nextDeadline (alarm : AlarmT) (justNow : PeriodMs) : PeriodMs :=
  justNow + (alarm.period - msIntoPeriod alarm justNow)

/-- The deadline of the instance that a thread takes from its queue: a periodic
alarm has been re-armed when it was dispatched. -/
def dispatchedDeadline (alarm : AlarmT) : PeriodMs :=
  if alarm.isPeriodic then alarm.prevDeadline else alarm.deadline

/-! ## Timers -/

@[ext] structure Timespec where
  tvSec : ℕ
  tvNsec : ℕ
  deriving DecidableEq, Repr

namespace Timespec

def zero : Timespec := ⟨0, 0⟩

def ofDeadline (deadline : PeriodMs) : Timespec :=
  ⟨(deadline / 1000).toNat, (deadline % 1000).toNat * 1000000⟩

def endOfTime : Timespec := ⟨2 ^ 62, 0⟩

def toMs (t : Timespec) : ℕ := t.tvSec * 1000 + t.tvNsec / 1000000

end Timespec

/-- A POSIX timer without interval: the absolute time it is armed for. -/
abbrev Timer := Option Timespec

/-- What has become of a timer when the code looks at it after arming it. -/
inductive ArmOutcome
  /-- still armed -/
  | armed
  /-- expired in the meantime, with its notification delivered -/
  | expired
  /-- disarmed itself without a notification -/
  | dropped
  deriving DecidableEq, Repr

/-- `timer_settime(timer, TIMER_ABSTIME, &value, NULL)`: the timer afterwards
and the number of times `timer_callback` has posted. A zeroed value disarms. -/
def timerSettime (value : Timespec) (outcome : ArmOutcome) : Timer × ℕ :=
  if value = Timespec.zero then (none, 0)
  else
    match outcome with
    | .armed => (some value, 0)
    | .expired => (none, 1)
    | .dropped => (none, 0)

/-- What `reschedule_root_alarm` does to the wakelock, and the value of
`timer_set` that it ends with. -/
inductive WakelockEvent
  | acquired
  | acquireFailed
  | released
  | rescheduled (timerSet : Bool)
  deriving DecidableEq, Repr

/-! ## The state behind the monitor -/

/-- The state that the monitor protects, with the two timers, the semaphore
`alarm_expired` and the record of what happened to the wakelock. -/
structure AlarmState where
  alarm : AlarmPtr → AlarmT
  alarms : List AlarmPtr
  queues : QueuePtr → FixedQueue AlarmPtr
  timer : Timer
  wakeupTimer : Timer
  timerSet : Bool
  alarmExpired : ℕ
  wakelock : List WakelockEvent

/-- What the kernel answers during one `reschedule_root_alarm`. -/
structure RescheduleEnv where
  now : PeriodMs
  wakelockAcquire : Bool
  wakeupOutcome : ArmOutcome
  timerOutcome : ArmOutcome
  deriving DecidableEq, Repr

structure ScheduleEnv where
  now : PeriodMs
  reschedule : RescheduleEnv
  deriving DecidableEq, Repr

structure SetEnv where
  creationTime : PeriodMs
  schedule : ScheduleEnv
  deriving DecidableEq, Repr

structure DispatchEnv where
  now : PeriodMs
  schedule : ScheduleEnv
  reschedule : RescheduleEnv
  deriving DecidableEq, Repr

/-- The arguments of `alarm_set_on_queue`; `cb` and `queue` are asserted to be
non-`NULL`. -/
structure SetArgs where
  alarm : AlarmPtr
  intervalMs : PeriodMs
  cb : CallbackPtr
  data : DataPtr
  queue : QueuePtr
  deriving DecidableEq, Repr

/-- `alarm` with the fields that `alarm_set_internal` assigns before it calls
`schedule_next_instance`. -/
def assigned (alarm : AlarmT) (r : SetArgs) (env : SetEnv) : AlarmT :=
  { alarm with
    creationTime := env.creationTime
    period := r.intervalMs
    queue := some r.queue
    callback := some r.cb
    data := r.data }

/-- What `alarm_queue_ready` keeps of a dequeued alarm in its local variables. -/
structure Instance where
  alarm : AlarmPtr
  callback : Option CallbackPtr
  data : DataPtr
  deadline : PeriodMs
  deriving DecidableEq, Repr

def timerIntervalForWakelockInMs : Int64 := 3000

namespace AlarmState

/-- The module after `lazy_initialize`, with one zeroed alarm of the given kind
behind every pointer and one empty queue of the given capacity. -/
def init (isPeriodic : AlarmPtr → Bool) (capacity : QueuePtr → UInt64) :
    AlarmState where
  alarm a := alarmNewInternal (isPeriodic a)
  alarms := []
  queues q := FixedQueue.new (capacity q)
  timer := none
  wakeupTimer := none
  timerSet := false
  alarmExpired := semaphoreNew 0
  wakelock := []

def modify (s : AlarmState) (a : AlarmPtr) (f : AlarmT → AlarmT) : AlarmState :=
  { s with alarm := Function.update s.alarm a (f (s.alarm a)) }

def setQueue (s : AlarmState) (q : QueuePtr) (queue : FixedQueue AlarmPtr) :
    AlarmState :=
  { s with queues := Function.update s.queues q queue }

/-- The list of the processing queue of `a`; an alarm that was never set has
none. -/
def processingQueue (s : AlarmState) (a : AlarmPtr) : List AlarmPtr :=
  match (s.alarm a).queue with
  | none => []
  | some q => (s.queues q).list

/-! ## Rescheduling -/

def rescheduleDone (s : AlarmState) (timerTime : Timespec) (env : RescheduleEnv) :
    AlarmState :=
  let timerWasSet := s.timerSet
  let timerSet := timerTime.tvSec ≠ 0 ∨ timerTime.tvNsec ≠ 0
  let (timer, posts) := timerSettime timerTime env.timerOutcome
  -- `timer_gettime` shows a zeroed value for a timer that is not armed
  let signal := if timerSet ∧ timer = none then 1 else 0
  { s with
    timerSet := timerSet
    wakelock :=
      (if timerWasSet ∧ ¬ timerSet then s.wakelock ++ [.released] else s.wakelock) ++
        [.rescheduled timerSet]
    timer := timer
    alarmExpired := s.alarmExpired + posts + signal }

def rescheduleRootAlarm (s : AlarmState) (env : RescheduleEnv) : AlarmState :=
  match s.alarms with
  | [] => rescheduleDone s Timespec.zero env
  | next :: _ =>
      let deadline := (s.alarm next).deadline
      let nextExpiration := (deadline - env.now).toInt64
      if nextExpiration < timerIntervalForWakelockInMs then
        if s.timerSet then
          rescheduleDone { s with wakeupTimer := some Timespec.endOfTime }
            (Timespec.ofDeadline deadline) env
        else if env.wakelockAcquire then
          rescheduleDone
            { s with
              wakelock := s.wakelock ++ [.acquired]
              wakeupTimer := some Timespec.endOfTime }
            (Timespec.ofDeadline deadline) env
        else
          rescheduleDone { s with wakelock := s.wakelock ++ [.acquireFailed] }
            Timespec.zero env
      else
        let (wakeupTimer, posts) :=
          timerSettime (Timespec.ofDeadline deadline) env.wakeupOutcome
        rescheduleDone
          { s with
            wakeupTimer := wakeupTimer
            alarmExpired := s.alarmExpired + posts }
          Timespec.zero env

/-! ## Scheduling -/

/-- The `while` loop of `remove_pending_alarm`. The list gets shorter in every
round that removes something, so its length is enough fuel. -/
def removeInstances (a : AlarmPtr) : ℕ → FixedQueue AlarmPtr → FixedQueue AlarmPtr
  | 0, q => q
  | fuel + 1, q =>
      match q.tryRemoveFromQueue a with
      | (some _, q') => removeInstances a fuel q'
      | (none, q') => q'

def removePendingAlarm (s : AlarmState) (a : AlarmPtr) : AlarmState :=
  { s with
    alarms := s.alarms.erase a
    queues :=
      match (s.alarm a).queue with
      | none => s.queues
      | some q =>
          Function.update s.queues q
            (removeInstances a (s.queues q).list.length (s.queues q)) }

def insertAfter (deadline : AlarmPtr → PeriodMs) (a : AlarmPtr) :
    AlarmPtr → List AlarmPtr → List AlarmPtr
  | node, [] => [node, a]
  | node, next :: rest =>
      if deadline a < deadline next then node :: a :: next :: rest
      else node :: insertAfter deadline a next rest

def insertAlarm (deadline : AlarmPtr → PeriodMs) (a : AlarmPtr) :
    List AlarmPtr → List AlarmPtr
  | [] => [a]
  | front :: rest =>
      if deadline a < deadline front then a :: front :: rest
      else insertAfter deadline a front rest

/-- The middle of `schedule_next_instance`: the next deadline of `a` and its
place in the list. -/
def addToTimerList (s : AlarmState) (a : AlarmPtr) (justNow : PeriodMs) : AlarmState :=
  let s := s.modify a fun al => { al with deadline := nextDeadline al justNow }
  { s with alarms := insertAlarm (fun x => (s.alarm x).deadline) a s.alarms }

def scheduleNextInstance (s : AlarmState) (a : AlarmPtr) (env : ScheduleEnv) :
    Except Fault AlarmState :=
  let needsReschedule := s.alarms.head? = some a
  let s := if (s.alarm a).callback.isSome then s.removePendingAlarm a else s
  if (s.alarm a).isPeriodic ∧ (s.alarm a).period = 0 then .error .divisionByZero
  else
    let s := s.addToTimerList a env.now
    if needsReschedule ∨ s.alarms.head? = some a then
      .ok (s.rescheduleRootAlarm env.reschedule)
    else .ok s

/-! ## The sections that run with the monitor held -/

/-- `alarm_set_internal` between taking and releasing the monitor. -/
def alarmSetInternal (s : AlarmState) (r : SetArgs) (env : SetEnv) :
    Except Fault AlarmState :=
  let s := s.modify r.alarm fun al => assigned al r env
  match s.scheduleNextInstance r.alarm env.schedule with
  | .error e => .error e
  | .ok s =>
      .ok <| s.modify r.alarm fun al =>
        { al with
          stats := { al.stats with scheduledCount := al.stats.scheduledCount + 1 } }

/-- `alarm_cancel` between taking and releasing the monitor. -/
def alarmCancel (s : AlarmState) (a : AlarmPtr) (env : RescheduleEnv) : AlarmState :=
  let needsReschedule := s.alarms.head? = some a
  let s := s.removePendingAlarm a
  let s := s.modify a fun al =>
    { al with
      deadline := 0
      prevDeadline := 0
      callback := none
      data := 0
      stats := { al.stats with canceledCount := al.stats.canceledCount + 1 } }
  if needsReschedule then s.rescheduleRootAlarm env else s

/-- One iteration of `callback_dispatch` from taking the monitor up to
`fixed_queue_enqueue`: the alarm to enqueue, if the front one is due. -/
def callbackDispatch (s : AlarmState) (env : DispatchEnv) :
    Except Fault (AlarmState × Option AlarmPtr) :=
  match s.alarms with
  | [] => .ok (s.rescheduleRootAlarm env.reschedule, none)
  | a :: _ =>
      if env.now < (s.alarm a).deadline then
        .ok (s.rescheduleRootAlarm env.reschedule, none)
      else
        let s := { s with alarms := s.alarms.erase a }
        if (s.alarm a).isPeriodic then
          let s := s.modify a fun al => { al with prevDeadline := al.deadline }
          match s.scheduleNextInstance a env.schedule with
          | .error e => .error e
          | .ok s =>
              let s := s.modify a fun al =>
                { al with
                  stats :=
                    { al.stats with
                      rescheduledCount := al.stats.rescheduledCount + 1 } }
              .ok (s.rescheduleRootAlarm env.reschedule, some a)
        else .ok (s.rescheduleRootAlarm env.reschedule, some a)

def callbackDispatchEnqueue (s : AlarmState) (a : AlarmPtr) :
    Except Fault AlarmState :=
  match (s.alarm a).queue with
  | none => .error .assertion
  | some q =>
      match (s.queues q).enqueue a with
      | none => .error .blocked
      | some queue => .ok (s.setQueue q queue)

/-- `alarm_queue_ready` between taking the monitor and locking
`callback_lock`. -/
def alarmQueueReady (s : AlarmState) (q : QueuePtr) : AlarmState × Option Instance :=
  match (s.queues q).tryDequeue with
  | (none, _) => (s, none)
  | (some a, queue) =>
      let al := s.alarm a
      let s := s.setQueue q queue
      let inst : Instance := ⟨a, al.callback, al.data, dispatchedDeadline al⟩
      if al.isPeriodic then (s, some inst)
      else
        (s.modify a fun al => { al with deadline := 0, callback := none, data := 0 },
          some inst)

end AlarmState

end Alarm

end Osi
