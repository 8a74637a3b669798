import Osi.Alarm.Deadline

/-!
# When the timers are reprogrammed

`reschedule_root_alarm` reads the list only through the deadline of its front
alarm, and it is the only function that programs the timers, changes
`timer_set` or calls the wakelock. `alarm_set_internal` and `alarm_cancel` call
it only on some paths. The lemmas below say that whenever they do not, the
front deadline is the one the timers were last programmed for. `TimerCase` then
sorts the steps of the system by what they do to the timers.
-/

namespace Osi

namespace Alarm

/-- The state that only `reschedule_root_alarm` and the kernel change. -/
structure Timers where
  timer : Timer
  wakeupTimer : Timer
  timerSet : Bool
  alarmExpired : ℕ
  wakelock : List WakelockEvent

namespace AlarmState

def timers (m : AlarmState) : Timers :=
  ⟨m.timer, m.wakeupTimer, m.timerSet, m.alarmExpired, m.wakelock⟩

@[simp] theorem timers_alarmExpired (m : AlarmState) :
    m.timers.alarmExpired = m.alarmExpired := rfl

def rootDeadline (m : AlarmState) : Option PeriodMs :=
  m.alarms.head?.map fun a => (m.alarm a).deadline

theorem rootDeadline_eq_none_iff {m : AlarmState} :
    m.rootDeadline = none ↔ m.alarms = [] := by
  simp [rootDeadline]

/-- The front deadline is a function of the list and of the deadline of its
front alarm. -/
theorem rootDeadline_congr {m m' : AlarmState}
    (hhead : m'.alarms.head? = m.alarms.head?)
    (hdeadline : ∀ a, m.alarms.head? = some a →
      (m'.alarm a).deadline = (m.alarm a).deadline) :
    m'.rootDeadline = m.rootDeadline := by
  unfold rootDeadline
  rw [hhead]
  cases hfront : m.alarms.head? with
  | none => rfl
  | some a => simp [hdeadline a hfront]

@[simp] theorem rescheduleRootAlarm_rootDeadline (m : AlarmState)
    (env : RescheduleEnv) :
    (m.rescheduleRootAlarm env).rootDeadline = m.rootDeadline :=
  rootDeadline_congr (by simp) (by simp)

theorem modify_rootDeadline (m : AlarmState) (a : AlarmPtr) (f : AlarmT → AlarmT)
    (hf : ∀ al, (f al).deadline = al.deadline) :
    (m.modify a f).rootDeadline = m.rootDeadline := by
  refine rootDeadline_congr rfl ?_
  intro b _
  exact field_eq_of_update AlarmT.deadline (modify_alarm m a f) (hf _) b

end AlarmState

open AlarmState

theorem ListedDeadlines.rootDeadline {p : PeriodMs → Prop} {m : AlarmState}
    (h : ListedDeadlines p m) {d : PeriodMs} (hd : m.rootDeadline = some d) : p d := by
  obtain ⟨a, ha, rfl⟩ := Option.map_eq_some_iff.mp hd
  exact h a (List.mem_of_mem_head? ha)

/-- The timers `t'` come from the timers `t` by one or more calls of
`reschedule_root_alarm`, all with the front deadline `r`. -/
inductive Rescheduled (r : Option PeriodMs) (envs : List RescheduleEnv) :
    Timers → Timers → Prop
  | once {m : AlarmState} {env : RescheduleEnv} (hroot : m.rootDeadline = r)
      (henv : env ∈ envs) :
      Rescheduled r envs m.timers (m.rescheduleRootAlarm env).timers
  | again {t : Timers} {m : AlarmState} {env : RescheduleEnv}
      (h : Rescheduled r envs t m.timers) (hroot : m.rootDeadline = r)
      (henv : env ∈ envs) :
      Rescheduled r envs t (m.rescheduleRootAlarm env).timers

/-- A section either keeps timers and front deadline, or reprograms the timers
for the front deadline it ends with. -/
def KeepsOrReschedules (envs : List RescheduleEnv) (m m' : AlarmState) : Prop :=
  (m'.timers = m.timers ∧ m'.rootDeadline = m.rootDeadline) ∨
    Rescheduled m'.rootDeadline envs m.timers m'.timers

namespace Rescheduled

variable {r : Option PeriodMs} {envs envs' : List RescheduleEnv} {t t' : Timers}

theorem mono (h : Rescheduled r envs t t') (hsub : ∀ env ∈ envs, env ∈ envs') :
    Rescheduled r envs' t t' := by
  induction h with
  | once hroot henv => exact .once hroot (hsub _ henv)
  | again _ hroot henv ih => exact .again ih hroot (hsub _ henv)

end Rescheduled

theorem head?_erase_of_ne {a : AlarmPtr} {alarms : List AlarmPtr}
    (h : alarms.head? ≠ some a) : (alarms.erase a).head? = alarms.head? := by
  cases alarms with
  | nil => rfl
  | cons x rest =>
      have hx : x ≠ a := fun hxa => h (by rw [hxa]; rfl)
      rw [List.erase_cons_tail (by simpa using hx)]
      rfl

/-- If the list still has its old front after the insertion, that front keeps
its deadline. -/
theorem addToTimerList_rootDeadline {m : AlarmState} {a : AlarmPtr}
    {justNow : PeriodMs} (hold : m.alarms.head? ≠ some a)
    (hnew : (m.addToTimerList a justNow).alarms.head? ≠ some a) :
    (m.addToTimerList a justNow).rootDeadline = m.rootDeadline := by
  obtain ⟨halarm, halarms, _⟩ := m.addToTimerList_spec a justNow
  have hhead : (m.addToTimerList a justNow).alarms.head? = m.alarms.head? := by
    rw [halarms] at hnew ⊢
    exact (Collection.head?_orderedInsert a m.alarms).resolve_left hnew
  refine rootDeadline_congr hhead ?_
  intro b hb
  have hba : b ≠ a := by
    rintro rfl
    exact hold hb
  rw [halarm, Function.update_of_ne hba]

theorem removePendingAlarm_rootDeadline {m : AlarmState} {a : AlarmPtr}
    (h : m.alarms.head? ≠ some a) :
    (m.removePendingAlarm a).rootDeadline = m.rootDeadline :=
  rootDeadline_congr (head?_erase_of_ne h) fun _ _ => rfl

theorem scheduleNextInstance_timers {m m' : AlarmState} {a : AlarmPtr}
    {env : ScheduleEnv} (h : m.scheduleNextInstance a env = .ok m') :
    KeepsOrReschedules [env.reschedule] m m' := by
  have key : ∀ base : AlarmState, base.timers = m.timers →
      (m.alarms.head? ≠ some a → base.rootDeadline = m.rootDeadline ∧
        base.alarms.head? ≠ some a) →
      (if m.alarms.head? = some a ∨
          (base.addToTimerList a env.now).alarms.head? = some a then
        Except.ok ((base.addToTimerList a env.now).rescheduleRootAlarm env.reschedule)
      else (.ok (base.addToTimerList a env.now) : Except Fault AlarmState)) = .ok m' →
      KeepsOrReschedules [env.reschedule] m m' := by
    intro base htimers hbase hres
    have htimers' : (base.addToTimerList a env.now).timers = m.timers := htimers
    split_ifs at hres with hfront
    · cases hres
      right
      rw [rescheduleRootAlarm_rootDeadline, ← htimers']
      exact .once rfl (by simp)
    · cases hres
      obtain ⟨hold, hnew⟩ := not_or.mp hfront
      obtain ⟨hroot, hhead⟩ := hbase hold
      exact Or.inl ⟨htimers', (addToTimerList_rootDeadline hhead hnew).trans hroot⟩
  unfold scheduleNextInstance at h
  dsimp only at h
  by_cases hcb : (m.alarm a).callback.isSome
  · simp only [hcb, if_true] at h
    split at h
    · cases h
    · refine key (m.removePendingAlarm a) rfl ?_ h
      intro hold
      refine ⟨removePendingAlarm_rootDeadline hold, ?_⟩
      rw [removePendingAlarm_alarms, head?_erase_of_ne hold]
      exact hold
  · rw [if_neg hcb] at h
    split at h
    · cases h
    · exact key m rfl (fun hold => ⟨rfl, hold⟩) h

theorem alarmSetInternal_timers {m m' : AlarmState} {r : SetArgs} {env : SetEnv}
    (h : m.alarmSetInternal r env = .ok m') :
    KeepsOrReschedules [env.schedule.reschedule] m m' := by
  obtain ⟨m₁, hm₁, rfl⟩ := alarmSetInternal_eq_ok h
  have hroot := m.modify_rootDeadline r.alarm (fun al => assigned al r env)
    fun _ => rfl
  have hroot₁ := m₁.modify_rootDeadline r.alarm
    (fun al => { al with
      stats := { al.stats with scheduledCount := al.stats.scheduledCount + 1 } })
    fun _ => rfl
  unfold KeepsOrReschedules
  rw [hroot₁]
  rcases scheduleNextInstance_timers hm₁ with ⟨htimers, hkeep⟩ | hres
  · exact Or.inl ⟨htimers, hkeep.trans hroot⟩
  · exact Or.inr hres

theorem alarmCancel_timers (m : AlarmState) (a : AlarmPtr) (env : RescheduleEnv) :
    KeepsOrReschedules [env] m (m.alarmCancel a env) := by
  unfold alarmCancel
  dsimp only
  split_ifs with hfront
  · right
    rw [rescheduleRootAlarm_rootDeadline]
    exact .once rfl (by simp)
  · refine Or.inl ⟨rfl, ?_⟩
    refine rootDeadline_congr (head?_erase_of_ne hfront) ?_
    intro b hb
    have hba : b ≠ a := by
      rintro rfl
      exact hfront hb
    rw [modify_alarm, Function.update_of_ne hba]
    rfl

/-- An iteration of the dispatcher always reprograms the timers. -/
theorem callbackDispatch_timers {m m' : AlarmState} {env : DispatchEnv}
    {o : Option AlarmPtr} (h : m.callbackDispatch env = .ok (m', o)) :
    Rescheduled m'.rootDeadline [env.schedule.reschedule, env.reschedule]
      m.timers m'.timers := by
  cases callbackDispatch_cases h with
  | empty | later | single =>
      rw [rescheduleRootAlarm_rootDeadline]
      exact .once rfl (by simp)
  | @periodic a _ m₁ _ _ _ hm₁ =>
      have hroot := m₁.modify_rootDeadline a
        (fun al => { al with
          stats :=
            { al.stats with rescheduledCount := al.stats.rescheduledCount + 1 } })
        fun _ => rfl
      rw [rescheduleRootAlarm_rootDeadline, hroot]
      rcases scheduleNextInstance_timers hm₁ with ⟨htimers, _⟩ | hres
      · have htimers' : m₁.timers = m.timers := htimers
        rw [← htimers']
        exact .once hroot (by simp)
      · exact .again (hres.mono (by simp)) hroot (by simp)

theorem Represents.dequeue_rootDeadline {m m' : AlarmState} {x : Option AlarmPtr}
    (h : Represents m x) (hw : Wellformed m x) {q : QueuePtr} {i : Instance}
    (hm : m.alarmQueueReady q = (m', some i)) :
    m'.rootDeadline = m.rootDeadline := by
  have halarms := (alarmQueueReady_some hm).2.2.2.1
  refine rootDeadline_congr (by rw [halarms]) ?_
  intro a ha
  exact h.dequeue_deadline hw hm (List.mem_of_mem_head? ha)

theorem alarmQueueReady_timers (m : AlarmState) (q : QueuePtr) :
    (m.alarmQueueReady q).1.timers = m.timers := by
  unfold alarmQueueReady
  split
  · rfl
  · dsimp only
    split_ifs <;> rfl

theorem callbackDispatchEnqueue_timers {m m' : AlarmState} {a : AlarmPtr}
    (h : m.callbackDispatchEnqueue a = .ok m') : m'.timers = m.timers := by
  unfold callbackDispatchEnqueue at h
  split at h
  · cases h
  · split at h <;> cases h
    rfl

namespace System

/-- What a step does to the timers and to the front deadline. Only taking a
token loses something that could wake the dispatcher, and the dispatcher then
has it. -/
inductive TimerCase (s : System) (l : Label) (s' : System) : Prop
  | keep (htimers : s'.mod.timers = s.mod.timers)
      (hroot : s'.mod.rootDeadline = s.mod.rootDeadline)
      (htoken : s.dispatcher = .token → s'.dispatcher = .token)
  | rescheduled
      (h : Rescheduled s'.mod.rootDeadline l.reschedules s.mod.timers s'.mod.timers)
  | expired (hwakelock : s'.mod.wakelock = s.mod.wakelock)
      (htimerSet : s'.mod.timerSet = s.mod.timerSet)
      (hroot : s'.mod.rootDeadline = s.mod.rootDeadline)
      (hpost : 0 < s'.mod.alarmExpired)
  | taken (hwakelock : s'.mod.wakelock = s.mod.wakelock)
      (htimerSet : s'.mod.timerSet = s.mod.timerSet)
      (hroot : s'.mod.rootDeadline = s.mod.rootDeadline)
      (htoken : s'.dispatcher = .token)

theorem TimerCase.of_keepsOrReschedules {s s' : System} {l : Label}
    (h : KeepsOrReschedules l.reschedules s.mod s'.mod)
    (htoken : s.dispatcher = .token → s'.dispatcher = .token) : TimerCase s l s' := by
  rcases h with ⟨htimers, hroot⟩ | hres
  · exact .keep htimers hroot htoken
  · exact .rescheduled hres

theorem step_timers {home : AlarmPtr → QueuePtr} {s s' : System} {l : Label}
    (hs : Sound home s) (h : s.step l = .ok s') : TimerCase s l s' := by
  cases step_cases h with
  | set _ hmod => exact .of_keepsOrReschedules (alarmSetInternal_timers hmod) id
  | cancel _ => exact .of_keepsOrReschedules (alarmCancel_timers _ _ _) id
  | take _ _ => exact .taken rfl rfl rfl rfl
  | dispatchNone _ hmod => exact .rescheduled (callbackDispatch_timers hmod)
  | dispatchSome _ hmod => exact .rescheduled (callbackDispatch_timers hmod)
  | enqueue htransit hmod =>
      obtain ⟨halarm, halarms, _⟩ := callbackDispatchEnqueue_ok hmod
      refine .keep (callbackDispatchEnqueue_timers hmod) ?_ ?_
      · exact rootDeadline_congr (congrArg _ halarms) fun a _ => by
          rw [record_mod, halarm]
      · intro htoken
        exact absurd (htransit.symm.trans htoken) (by simp)
  | dequeueNone _ _ hmod =>
      rw [(alarmQueueReady_none hmod).1]
      exact .keep rfl rfl id
  | @dequeueSome t q _ i _ _ hmod =>
      have htimers := alarmQueueReady_timers s.mod q
      rw [hmod] at htimers
      exact .keep htimers (hs.represents.dequeue_rootDeadline hs.wellformed hmod) id
  | invoke _ => exact .keep rfl rfl id
  | finish _ => exact .keep rfl (modify_rootDeadline _ _ _ fun _ => rfl) id
  | expireTimer _ => exact .expired rfl rfl rfl (Nat.succ_pos _)
  | expireWakeupTimer _ => exact .expired rfl rfl rfl (Nat.succ_pos _)

end System

end Alarm

end Osi
