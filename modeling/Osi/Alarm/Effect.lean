import Osi.Alarm.Sections
import Osi.Alarm.System

/-!
# The effect of a step on the alarms

Most steps of `System` leave the alarm objects, the list and the queues alone,
up to statistics. `Effect` sorts the steps by what they do to these three, so
that an invariant about them is proved once for each of the five sections and
once for everything else.
-/

namespace Osi

namespace Alarm

open AlarmState

/-- `m'` differs from `m` only in the timers, the semaphore, the wakelock and
the statistics of the alarms. -/
structure SameAlarms (m m' : AlarmState) : Prop where
  alarm : ∀ a, ∃ stats, m'.alarm a = { m.alarm a with stats := stats }
  alarms : m'.alarms = m.alarms
  queues : m'.queues = m.queues

namespace SameAlarms

variable {m m' : AlarmState}

theorem of_eq (halarm : m'.alarm = m.alarm) (halarms : m'.alarms = m.alarms)
    (hqueues : m'.queues = m.queues) : SameAlarms m m' :=
  ⟨fun a => ⟨(m.alarm a).stats, by rw [halarm]⟩, halarms, hqueues⟩

theorem rescheduleRootAlarm (m : AlarmState) (env : RescheduleEnv) :
    SameAlarms m (m.rescheduleRootAlarm env) :=
  of_eq (rescheduleRootAlarm_alarm m env) (rescheduleRootAlarm_alarms m env)
    (rescheduleRootAlarm_queues m env)

theorem modify_stats (m : AlarmState) (a : AlarmPtr)
    (f : AlarmStats → AlarmStats) :
    SameAlarms m (m.modify a fun al => { al with stats := f al.stats }) := by
  refine ⟨?_, rfl, rfl⟩
  intro b
  by_cases hb : b = a
  · subst hb
    rw [modify_alarm, Function.update_self]
    exact ⟨_, rfl⟩
  · rw [modify_alarm, Function.update_of_ne hb]
    exact ⟨_, rfl⟩

theorem isPeriodic (h : SameAlarms m m') (a : AlarmPtr) :
    (m'.alarm a).isPeriodic = (m.alarm a).isPeriodic := by
  obtain ⟨stats, ha⟩ := h.alarm a
  rw [ha]

theorem queue (h : SameAlarms m m') (a : AlarmPtr) :
    (m'.alarm a).queue = (m.alarm a).queue := by
  obtain ⟨stats, ha⟩ := h.alarm a
  rw [ha]

theorem callback (h : SameAlarms m m') (a : AlarmPtr) :
    (m'.alarm a).callback = (m.alarm a).callback := by
  obtain ⟨stats, ha⟩ := h.alarm a
  rw [ha]

theorem deadline (h : SameAlarms m m') (a : AlarmPtr) :
    (m'.alarm a).deadline = (m.alarm a).deadline := by
  obtain ⟨stats, ha⟩ := h.alarm a
  rw [ha]

end SameAlarms

/-- What a step does to the alarms and to the alarm in the hands of the
dispatcher: one of the five sections, or nothing. -/
inductive Effect : Label → AlarmState → Option AlarmPtr →
    AlarmState → Option AlarmPtr → Prop
  | set {m m' : AlarmState} {r : SetArgs} {env : SetEnv}
      (hm : m.alarmSetInternal r env = .ok m') : Effect (.set r env) m none m' none
  | cancel {m : AlarmState} {a : AlarmPtr} {env : RescheduleEnv} :
      Effect (.cancel a env) m none (m.alarmCancel a env) none
  | dispatch {m m' : AlarmState} {a : AlarmPtr} {env : DispatchEnv}
      (hm : m.callbackDispatch env = .ok (m', some a)) :
      Effect (.dispatch env) m none m' (some a)
  | enqueue {m m' : AlarmState} {a : AlarmPtr}
      (hm : m.callbackDispatchEnqueue a = .ok m') :
      Effect .enqueue m (some a) m' none
  | dequeue {m m' : AlarmState} {t : Tid} {q : QueuePtr} {i : Instance}
      (hm : m.alarmQueueReady q = (m', some i)) :
      Effect (.dequeue t q) m none m' none
  | same {l : Label} {m m' : AlarmState} {x : Option AlarmPtr}
      (hm : SameAlarms m m') : Effect l m x m' x

theorem System.step_effect {s s' : System} {l : Label} (h : s.step l = .ok s') :
    Effect l s.mod s.inTransit s'.mod s'.inTransit := by
  cases step_cases h with
  | set hquiet hmod =>
      have hx : s.inTransit = none := hquiet
      change Effect _ _ s.inTransit _ s.inTransit
      rw [hx]
      exact .set hmod
  | cancel hquiet =>
      have hx : s.inTransit = none := hquiet
      change Effect _ _ s.inTransit _ s.inTransit
      rw [hx]
      exact .cancel
  | take hwaiting htoken =>
      simp only [inTransit, record_mod, record_dispatcher, hwaiting]
      exact .same (.of_eq rfl rfl rfl)
  | dispatchNone htoken hmod =>
      simp only [inTransit, record_mod, record_dispatcher, htoken]
      rw [(callbackDispatch_none hmod).1]
      exact .same (.rescheduleRootAlarm _ _)
  | dispatchSome htoken hmod =>
      simp only [inTransit, record_mod, record_dispatcher, htoken]
      exact .dispatch hmod
  | enqueue htransit hmod =>
      simp only [inTransit, record_mod, record_dispatcher, htransit]
      exact .enqueue hmod
  | dequeueNone hquiet hidle hmod =>
      rw [(alarmQueueReady_none hmod).1]
      exact .same (.of_eq rfl rfl rfl)
  | dequeueSome hquiet hidle hmod =>
      have hx : s.inTransit = none := hquiet
      change Effect _ _ s.inTransit _ s.inTransit
      rw [hx]
      exact .dequeue hmod
  | invoke hready => exact .same (.of_eq rfl rfl rfl)
  | @finish t t1 t0 i hrunning =>
      exact .same (.modify_stats s.mod i.alarm
        fun stats => updateSchedulingStats stats t0 i.deadline (t1 - t0))
  | expireTimer harmed => exact .same (.of_eq rfl rfl rfl)
  | expireWakeupTimer harmed => exact .same (.of_eq rfl rfl rfl)

theorem field_eq_of_update {β : Type*} (f : AlarmT → β) {alarm alarm' : AlarmPtr → AlarmT}
    {b : AlarmPtr} {al : AlarmT} (halarm : alarm' = Function.update alarm b al)
    (hal : f al = f (alarm b)) (a : AlarmPtr) : f (alarm' a) = f (alarm a) := by
  rw [halarm]
  by_cases ha : a = b
  · subst ha
    rw [Function.update_self, hal]
  · rw [Function.update_of_ne ha]

namespace Effect

variable {l : Label} {m m' : AlarmState} {x x' : Option AlarmPtr}

theorem isPeriodic_eq (h : Effect l m x m' x') (a : AlarmPtr) :
    (m'.alarm a).isPeriodic = (m.alarm a).isPeriodic := by
  cases h with
  | set hm =>
      obtain ⟨⟨stats, halarm⟩, _⟩ := alarmSetInternal_ok hm
      exact field_eq_of_update AlarmT.isPeriodic halarm rfl a
  | cancel =>
      obtain ⟨⟨stats, halarm⟩, _⟩ := alarmCancel_spec m _ _
      exact field_eq_of_update AlarmT.isPeriodic halarm rfl a
  | dispatch hm =>
      obtain ⟨rest, _, _, ⟨_, halarm, _⟩ | ⟨_, ⟨stats, halarm⟩, _⟩⟩ :=
        callbackDispatch_some hm
      · rw [halarm]
      · exact field_eq_of_update AlarmT.isPeriodic halarm rfl a
  | enqueue hm => rw [(callbackDispatchEnqueue_ok hm).1]
  | dequeue hm =>
      obtain ⟨_, _, halarm, _⟩ := alarmQueueReady_some hm
      exact field_eq_of_update AlarmT.isPeriodic halarm (serviced_fields _).1 a
  | same hm => exact hm.isPeriodic a

theorem queue_eq (h : Effect l m x m' x') (a : AlarmPtr) :
    (m'.alarm a).queue = (m.alarm a).queue ∨
      ∃ r env, l = .set r env ∧ r.alarm = a ∧ (m'.alarm a).queue = some r.queue := by
  cases h with
  | @set _ _ r env hm =>
      obtain ⟨⟨stats, halarm⟩, _⟩ := alarmSetInternal_ok hm
      by_cases ha : a = r.alarm
      · subst ha
        refine Or.inr ⟨r, env, rfl, rfl, ?_⟩
        rw [halarm, Function.update_self]
        rfl
      · left
        rw [halarm, Function.update_of_ne ha]
  | cancel =>
      obtain ⟨⟨stats, halarm⟩, _⟩ := alarmCancel_spec m _ _
      exact Or.inl (field_eq_of_update AlarmT.queue halarm rfl a)
  | dispatch hm =>
      obtain ⟨rest, _, _, ⟨_, halarm, _⟩ | ⟨_, ⟨stats, halarm⟩, _⟩⟩ :=
        callbackDispatch_some hm
      · rw [halarm]
        exact Or.inl rfl
      · exact Or.inl (field_eq_of_update AlarmT.queue halarm rfl a)
  | enqueue hm =>
      rw [(callbackDispatchEnqueue_ok hm).1]
      exact Or.inl rfl
  | dequeue hm =>
      obtain ⟨_, _, halarm, _⟩ := alarmQueueReady_some hm
      exact Or.inl (field_eq_of_update AlarmT.queue halarm (serviced_fields _).2.1 a)
  | same hm => exact Or.inl (hm.queue a)

end Effect

end Alarm

end Osi
