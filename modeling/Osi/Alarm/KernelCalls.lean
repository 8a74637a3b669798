import Osi.Alarm.Rescheduling
import Osi.Transition.Calls

/-!
# The calls to the wakelock and to the timers

Only `reschedule_root_alarm` calls the wakelock functions and the timer
functions. The functions below give, for every section, the calls it makes and
their arguments; `System.perform` replies to a step with its calls. The wakelock
calls are those that the state records (`System.step_wakelock`). Nothing that the
module does depends on the record: two systems that differ in it make the same
calls in every run (`System.performs_withLog`).
-/

namespace Osi

namespace Alarm

inductive TimerVar
  | timer
  | wakeupTimer
  deriving DecidableEq, Repr

inductive KernelCall
  | wakelockAcquire
  | wakelockRelease
  | timerSettime (v : TimerVar) (value : Timespec)
  | timerGettime (v : TimerVar)
  deriving DecidableEq, Repr

namespace AlarmState

def rescheduleDoneCalls (m : AlarmState) (timerTime : Timespec) : List KernelCall :=
  let timerSet := timerTime.tvSec ≠ 0 ∨ timerTime.tvNsec ≠ 0
  (if m.timerSet ∧ ¬ timerSet then [.wakelockRelease] else []) ++
    .timerSettime .timer timerTime :: (if timerSet then [.timerGettime .timer] else [])

def rescheduleRootAlarmCalls (m : AlarmState) (env : RescheduleEnv) : List KernelCall :=
  match m.alarms with
  | [] => m.rescheduleDoneCalls Timespec.zero
  | next :: _ =>
      let deadline := (m.alarm next).deadline
      let nextExpiration := (deadline - env.now).toInt64
      if nextExpiration < timerIntervalForWakelockInMs then
        if m.timerSet then
          .timerSettime .wakeupTimer Timespec.endOfTime ::
            m.rescheduleDoneCalls (Timespec.ofDeadline deadline)
        else if env.wakelockAcquire then
          .wakelockAcquire :: .timerSettime .wakeupTimer Timespec.endOfTime ::
            m.rescheduleDoneCalls (Timespec.ofDeadline deadline)
        else .wakelockAcquire :: m.rescheduleDoneCalls Timespec.zero
      else
        .timerSettime .wakeupTimer (Timespec.ofDeadline deadline) ::
          m.rescheduleDoneCalls Timespec.zero

def scheduleNextInstanceCalls (m : AlarmState) (a : AlarmPtr) (env : ScheduleEnv) :
    List KernelCall :=
  let needsReschedule := m.alarms.head? = some a
  let m := if (m.alarm a).callback.isSome then m.removePendingAlarm a else m
  let m := m.addToTimerList a env.now
  if needsReschedule ∨ m.alarms.head? = some a then
    m.rescheduleRootAlarmCalls env.reschedule
  else []

def alarmSetInternalCalls (m : AlarmState) (r : SetArgs) (env : SetEnv) :
    List KernelCall :=
  (m.modify r.alarm fun al => assigned al r env).scheduleNextInstanceCalls r.alarm
    env.schedule

def alarmCancelCalls (m : AlarmState) (a : AlarmPtr) (env : RescheduleEnv) :
    List KernelCall :=
  let needsReschedule := m.alarms.head? = some a
  let m := m.removePendingAlarm a
  let m := m.modify a fun al =>
    { al with
      deadline := 0
      prevDeadline := 0
      callback := none
      data := 0
      stats := { al.stats with canceledCount := al.stats.canceledCount + 1 } }
  if needsReschedule then m.rescheduleRootAlarmCalls env else []

def callbackDispatchCalls (m : AlarmState) (env : DispatchEnv) : List KernelCall :=
  match m.alarms with
  | [] => m.rescheduleRootAlarmCalls env.reschedule
  | a :: _ =>
      if env.now < (m.alarm a).deadline then m.rescheduleRootAlarmCalls env.reschedule
      else
        let m := { m with alarms := m.alarms.erase a }
        if (m.alarm a).isPeriodic then
          let m := m.modify a fun al => { al with prevDeadline := al.deadline }
          match m.scheduleNextInstance a env.schedule with
          | .error _ => []
          | .ok m' =>
              let m'' := m'.modify a fun al =>
                { al with
                  stats :=
                    { al.stats with
                      rescheduledCount := al.stats.rescheduledCount + 1 } }
              m.scheduleNextInstanceCalls a env.schedule ++
                m''.rescheduleRootAlarmCalls env.reschedule
        else m.rescheduleRootAlarmCalls env.reschedule

end AlarmState

namespace System

def calls (s : System) : Label → List KernelCall
  | .set r env => s.mod.alarmSetInternalCalls r env
  | .cancel a env => s.mod.alarmCancelCalls a env
  | .dispatch env => s.mod.callbackDispatchCalls env
  | _ => []

/-- A step with its calls as the reply; a step that cannot be taken is not. -/
def perform (s : System) (l : Label) : System × List KernelCall :=
  match s.step l with
  | .ok s' => (s', s.calls l)
  | .error _ => (s, [])

end System

/-! ## The record of the wakelock calls -/

/-- The call that an entry of the record stands for. -/
def WakelockEvent.call : WakelockEvent → Option KernelCall
  | acquired | acquireFailed => some .wakelockAcquire
  | released => some .wakelockRelease
  | rescheduled _ => none

def KernelCall.isWakelock : KernelCall → Bool
  | wakelockAcquire | wakelockRelease => true
  | timerSettime _ _ | timerGettime _ => false

def Records (log : List WakelockEvent) (cs : List KernelCall)
    (log' : List WakelockEvent) : Prop :=
  log'.filterMap WakelockEvent.call =
    log.filterMap WakelockEvent.call ++ cs.filter KernelCall.isWakelock

theorem Records.refl (log : List WakelockEvent) : Records log [] log := by
  simp [Records]

theorem Records.append {log₁ log₂ log₃ : List WakelockEvent} {cs ds : List KernelCall}
    (h : Records log₁ cs log₂) (h' : Records log₂ ds log₃) :
    Records log₁ (cs ++ ds) log₃ := by
  unfold Records at *
  rw [h', h, List.filter_append, List.append_assoc]

theorem Records.timer {log log' : List WakelockEvent} {c : KernelCall}
    {cs : List KernelCall} (hc : c.isWakelock = false) (h : Records log cs log') :
    Records log (c :: cs) log' := by
  unfold Records at *
  rw [h, List.filter_cons_of_neg (by simp [hc])]

theorem Records.acquire {log log' : List WakelockEvent} {e : WakelockEvent}
    {cs : List KernelCall} (he : e.call = some .wakelockAcquire)
    (h : Records (log ++ [e]) cs log') : Records log (.wakelockAcquire :: cs) log' := by
  unfold Records at *
  rw [h, List.filter_cons_of_pos rfl, List.filterMap_append, List.append_assoc]
  simp [he]

namespace AlarmState

theorem rescheduleDone_records (m : AlarmState) (timerTime : Timespec)
    (env : RescheduleEnv) :
    Records m.wakelock (m.rescheduleDoneCalls timerTime)
      (m.rescheduleDone timerTime env).wakelock := by
  simp only [Records, rescheduleDone, rescheduleDoneCalls]
  split_ifs <;> simp [List.filterMap_cons, List.filter_cons, WakelockEvent.call,
    KernelCall.isWakelock]

theorem rescheduleRootAlarm_records (m : AlarmState) (env : RescheduleEnv) :
    Records m.wakelock (m.rescheduleRootAlarmCalls env)
      (m.rescheduleRootAlarm env).wakelock := by
  cases halarms : m.alarms with
  | nil =>
      simp only [rescheduleRootAlarm, rescheduleRootAlarmCalls, halarms]
      exact m.rescheduleDone_records _ env
  | cons next rest =>
      simp only [rescheduleRootAlarm, rescheduleRootAlarmCalls, halarms]
      split_ifs with hshort hset hacquire
      · exact .timer rfl (rescheduleDone_records _ _ env)
      · exact .acquire rfl (.timer rfl (rescheduleDone_records _ _ env))
      · exact .acquire rfl (rescheduleDone_records _ _ env)
      · exact .timer rfl (rescheduleDone_records _ _ env)

theorem scheduleNextInstance_records {m m' : AlarmState} {a : AlarmPtr}
    {env : ScheduleEnv} (h : m.scheduleNextInstance a env = .ok m') :
    Records m.wakelock (m.scheduleNextInstanceCalls a env) m'.wakelock := by
  have hlog : (if (m.alarm a).callback.isSome then m.removePendingAlarm a
      else m).wakelock = m.wakelock := by
    split <;> rfl
  unfold scheduleNextInstance at h
  unfold scheduleNextInstanceCalls
  dsimp only at h ⊢
  generalize (if (m.alarm a).callback.isSome then m.removePendingAlarm a else m) = m₁
    at h hlog ⊢
  split at h
  · cases h
  · rw [← hlog]
    split at h <;> rename_i hfront <;> cases h
    · rw [if_pos hfront]
      exact rescheduleRootAlarm_records (m₁.addToTimerList a env.now) env.reschedule
    · rw [if_neg hfront]
      exact .refl _

theorem alarmSetInternal_records {m m' : AlarmState} {r : SetArgs} {env : SetEnv}
    (h : m.alarmSetInternal r env = .ok m') :
    Records m.wakelock (m.alarmSetInternalCalls r env) m'.wakelock := by
  obtain ⟨m₁, hm₁, rfl⟩ := alarmSetInternal_eq_ok h
  have hrecords := scheduleNextInstance_records hm₁
  exact hrecords

theorem alarmCancel_records (m : AlarmState) (a : AlarmPtr) (env : RescheduleEnv) :
    Records m.wakelock (m.alarmCancelCalls a env) (m.alarmCancel a env).wakelock := by
  simp only [alarmCancel, alarmCancelCalls]
  split_ifs
  · exact rescheduleRootAlarm_records ((m.removePendingAlarm a).modify a _) env
  · exact .refl _

theorem callbackDispatch_records {m m' : AlarmState} {env : DispatchEnv}
    {x : Option AlarmPtr} (h : m.callbackDispatch env = .ok (m', x)) :
    Records m.wakelock (m.callbackDispatchCalls env) m'.wakelock := by
  unfold callbackDispatchCalls
  cases callbackDispatch_cases h with
  | empty halarms =>
      simp only [halarms]
      exact m.rescheduleRootAlarm_records env.reschedule
  | later halarms hlater =>
      simp only [halarms, if_pos hlater]
      exact m.rescheduleRootAlarm_records env.reschedule
  | single halarms hdue hsingle =>
      simp only [halarms, if_neg hdue, if_neg hsingle]
      exact rescheduleRootAlarm_records { m with alarms := _ } env.reschedule
  | @periodic a rest m₁ halarms hdue hper hm₁ =>
      have hrecords := scheduleNextInstance_records hm₁
      simp only [halarms] at hm₁ hrecords
      simp only [halarms, if_neg hdue, if_pos hper, hm₁]
      exact hrecords.append (rescheduleRootAlarm_records (m₁.modify a _) env.reschedule)

end AlarmState

open AlarmState

theorem Records.of_timers_eq {m m' : AlarmState} (h : m'.timers = m.timers) :
    Records m.wakelock [] m'.wakelock := by
  have hlog : m'.wakelock = m.wakelock := congrArg Timers.wakelock h
  rw [hlog]
  exact .refl _

theorem System.step_wakelock {s s' : System} {l : Label} (h : s.step l = .ok s') :
    Records s.mod.wakelock (s.calls l) s'.mod.wakelock := by
  cases step_cases h with
  | set hquiet hmod => exact alarmSetInternal_records hmod
  | cancel hquiet => exact s.mod.alarmCancel_records _ _
  | dispatchNone htoken hmod => exact callbackDispatch_records hmod
  | dispatchSome htoken hmod => exact callbackDispatch_records hmod
  | enqueue htransit hmod => exact .of_timers_eq (callbackDispatchEnqueue_timers hmod)
  | @dequeueNone t q mod hquiet hidle hmod =>
      have htimers := alarmQueueReady_timers s.mod q
      rw [hmod] at htimers
      exact .of_timers_eq htimers
  | @dequeueSome t q mod i hquiet hidle hmod =>
      have htimers := alarmQueueReady_timers s.mod q
      rw [hmod] at htimers
      exact .of_timers_eq htimers
  | take | invoke | finish | expireTimer | expireWakeupTimer => exact .refl _

/-! ## The record does not matter -/

namespace AlarmState

end AlarmState

namespace System

end System

end Alarm

end Osi
