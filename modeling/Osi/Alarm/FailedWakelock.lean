import Osi.Alarm.KernelCalls
import Osi.Alarm.Wakeup

/-!
# When the wakelock cannot be acquired

If `wakelock_acquire` fails, `reschedule_root_alarm` goes to the label `done` with a zeroed
`timer_time`, and so disarms the timer instead of arming it. What wakes the dispatcher then
is only what was there before the call: the wakeup timer, if it happens to be armed for the
same deadline, or a token that is pending. `rescheduleCalls` gives the calls of
`reschedule_root_alarm` that a step makes, each with the state in which it is made.
-/

namespace Osi

namespace Alarm

open Transition

namespace AlarmState

/-! ## The calls of `reschedule_root_alarm` -/

def scheduleNextInstanceReschedules (m : AlarmState) (a : AlarmPtr) (env : ScheduleEnv) :
    List (AlarmState × RescheduleEnv) :=
  let needsReschedule := m.alarms.head? = some a
  let m := if (m.alarm a).callback.isSome then m.removePendingAlarm a else m
  let m := m.addToTimerList a env.now
  if needsReschedule ∨ m.alarms.head? = some a then [(m, env.reschedule)] else []

def alarmSetInternalReschedules (m : AlarmState) (r : SetArgs) (env : SetEnv) :
    List (AlarmState × RescheduleEnv) :=
  (m.modify r.alarm fun al => assigned al r env).scheduleNextInstanceReschedules r.alarm
    env.schedule

def alarmCancelReschedules (m : AlarmState) (a : AlarmPtr) (env : RescheduleEnv) :
    List (AlarmState × RescheduleEnv) :=
  let needsReschedule := m.alarms.head? = some a
  let m := m.removePendingAlarm a
  let m := m.modify a fun al =>
    { al with
      deadline := 0
      prevDeadline := 0
      callback := none
      data := 0
      stats := { al.stats with canceledCount := al.stats.canceledCount + 1 } }
  if needsReschedule then [(m, env)] else []

def callbackDispatchReschedules (m : AlarmState) (env : DispatchEnv) :
    List (AlarmState × RescheduleEnv) :=
  match m.alarms with
  | [] => [(m, env.reschedule)]
  | a :: _ =>
      if env.now < (m.alarm a).deadline then [(m, env.reschedule)]
      else
        let m := { m with alarms := m.alarms.erase a }
        if (m.alarm a).isPeriodic then
          let m := m.modify a fun al => { al with prevDeadline := al.deadline }
          match m.scheduleNextInstance a env.schedule with
          | .error _ => []
          | .ok m' =>
              let m'' := m'.modify a fun al =>
                { al with
                  stats :=
                    { al.stats with
                      rescheduledCount := al.stats.rescheduledCount + 1 } }
              m.scheduleNextInstanceReschedules a env.schedule ++ [(m'', env.reschedule)]
        else [(m, env.reschedule)]

theorem scheduleNextInstanceCalls_eq_flatMap (m : AlarmState) (a : AlarmPtr)
    (env : ScheduleEnv) :
    m.scheduleNextInstanceCalls a env = (m.scheduleNextInstanceReschedules a env).flatMap
      fun c => c.1.rescheduleRootAlarmCalls c.2 := by
  simp only [scheduleNextInstanceCalls, scheduleNextInstanceReschedules]
  generalize (if (m.alarm a).callback.isSome then m.removePendingAlarm a else m) = m₁
  split_ifs <;> simp

/-- A section from `m` to `m'` with the calls `cs`: the timers and the front deadline are
those that its last call leaves, and without a call they are unchanged. -/
def EndsWith (cs : List (AlarmState × RescheduleEnv)) (m m' : AlarmState) : Prop :=
  match cs.getLast? with
  | none => m'.timers = m.timers ∧ m'.rootDeadline = m.rootDeadline
  | some (base, env) =>
      m'.timers = (base.rescheduleRootAlarm env).timers ∧
        m'.rootDeadline = base.rootDeadline

theorem scheduleNextInstance_endsWith {m m' : AlarmState} {a : AlarmPtr} {env : ScheduleEnv}
    (h : m.scheduleNextInstance a env = .ok m') :
    EndsWith (m.scheduleNextInstanceReschedules a env) m m' := by
  have hbase : (if (m.alarm a).callback.isSome then m.removePendingAlarm a
      else m).timers = m.timers ∧ (m.alarms.head? ≠ some a →
        (if (m.alarm a).callback.isSome then m.removePendingAlarm a
          else m).rootDeadline = m.rootDeadline ∧
        (if (m.alarm a).callback.isSome then m.removePendingAlarm a
          else m).alarms.head? ≠ some a) := by
    split_ifs
    · refine ⟨rfl, fun hold => ⟨removePendingAlarm_rootDeadline hold, ?_⟩⟩
      rw [removePendingAlarm_alarms, head?_erase_of_ne hold]
      exact hold
    · exact ⟨rfl, fun hold => ⟨rfl, hold⟩⟩
  unfold scheduleNextInstance at h
  unfold scheduleNextInstanceReschedules
  dsimp only at h ⊢
  generalize (if (m.alarm a).callback.isSome then m.removePendingAlarm a else m) = base
    at h hbase ⊢
  obtain ⟨htimers, hkept⟩ := hbase
  split at h
  · cases h
  · split at h
    · rename_i hfront
      cases h
      rw [if_pos hfront]
      exact ⟨rfl, rescheduleRootAlarm_rootDeadline _ _⟩
    · rename_i hfront
      cases h
      obtain ⟨hold, hnew⟩ := not_or.mp hfront
      obtain ⟨hroot, hhead⟩ := hkept hold
      rw [if_neg hfront]
      exact ⟨htimers, (addToTimerList_rootDeadline hhead hnew).trans hroot⟩

theorem alarmSetInternal_endsWith {m m' : AlarmState} {r : SetArgs} {env : SetEnv}
    (h : m.alarmSetInternal r env = .ok m') :
    EndsWith (m.alarmSetInternalReschedules r env) m m' := by
  obtain ⟨m₁, hm₁, rfl⟩ := alarmSetInternal_eq_ok h
  have hroot := m.modify_rootDeadline r.alarm (fun al => assigned al r env) fun _ => rfl
  have hroot₁ := m₁.modify_rootDeadline r.alarm
    (fun al => { al with
      stats := { al.stats with scheduledCount := al.stats.scheduledCount + 1 } })
    fun _ => rfl
  have hends := scheduleNextInstance_endsWith hm₁
  unfold alarmSetInternalReschedules
  unfold EndsWith at hends ⊢
  rw [hroot₁]
  rw [hroot] at hends
  exact hends

theorem alarmCancel_endsWith (m : AlarmState) (a : AlarmPtr) (env : RescheduleEnv) :
    EndsWith (m.alarmCancelReschedules a env) m (m.alarmCancel a env) := by
  unfold alarmCancel alarmCancelReschedules
  dsimp only
  split_ifs with hfront
  · exact ⟨rfl, rescheduleRootAlarm_rootDeadline _ _⟩
  · refine ⟨rfl, rootDeadline_congr (head?_erase_of_ne hfront) ?_⟩
    intro b hb
    have hba : b ≠ a := by
      rintro rfl
      exact hfront hb
    rw [modify_alarm, Function.update_of_ne hba]
    rfl

theorem callbackDispatch_endsWith {m m' : AlarmState} {env : DispatchEnv}
    {x : Option AlarmPtr} (h : m.callbackDispatch env = .ok (m', x)) :
    EndsWith (m.callbackDispatchReschedules env) m m' ∧
      m.callbackDispatchReschedules env ≠ [] := by
  unfold callbackDispatchReschedules
  cases callbackDispatch_cases h with
  | empty halarms =>
      simp only [halarms]
      exact ⟨⟨rfl, rescheduleRootAlarm_rootDeadline _ _⟩, List.cons_ne_nil _ _⟩
  | later halarms hlater =>
      simp only [halarms, if_pos hlater]
      exact ⟨⟨rfl, rescheduleRootAlarm_rootDeadline _ _⟩, List.cons_ne_nil _ _⟩
  | single halarms hdue hsingle =>
      simp only [halarms, if_neg hdue, if_neg hsingle]
      exact ⟨⟨rfl, rescheduleRootAlarm_rootDeadline _ _⟩, List.cons_ne_nil _ _⟩
  | periodic halarms hdue hper hm₁ =>
      simp only [halarms] at hm₁
      simp only [halarms, if_neg hdue, if_pos hper, hm₁]
      unfold EndsWith
      rw [List.getLast?_concat]
      exact ⟨⟨rfl, rescheduleRootAlarm_rootDeadline _ _⟩, by simp⟩

/-! ## A failed call -/

def AcquireFails (m : AlarmState) (env : RescheduleEnv) : Prop :=
  m.timerSet = false ∧ env.wakelockAcquire = false ∧
    ∃ d, m.rootDeadline = some d ∧ (d - env.now).toInt64 < timerIntervalForWakelockInMs

def Covered (m : AlarmState) : Prop :=
  ∀ d, m.rootDeadline = some d →
    m.wakeupTimer = some (Timespec.ofDeadline d) ∨ 0 < m.alarmExpired

instance (m : AlarmState) (env : RescheduleEnv) : Decidable (AcquireFails m env) :=
  decidable_of_iff (m.timerSet = false ∧ env.wakelockAcquire = false ∧
    m.rootDeadline.any (fun d => decide
      ((d - env.now).toInt64 < timerIntervalForWakelockInMs)) = true)
    (by simp [AcquireFails, Option.any_eq_true])

instance (m : AlarmState) : Decidable (Covered m) :=
  decidable_of_iff (m.rootDeadline.all (fun d => decide
    (m.wakeupTimer = some (Timespec.ofDeadline d) ∨ 0 < m.alarmExpired)) = true)
    (by simp [Covered, Option.all_eq_true])

/-- After a failed call the root alarm has something that wakes the dispatcher exactly if
it had it before. -/
theorem wakes_iff_covered {m : AlarmState} {env : RescheduleEnv} (h : AcquireFails m env) :
    (m.rescheduleRootAlarm env).timers.Wakes m.rootDeadline ↔ Covered m := by
  obtain ⟨hset, hacquire, d, hd, hshort⟩ := h
  cases halarms : m.alarms with
  | nil =>
      rw [rootDeadline_eq_none_iff.mpr halarms] at hd
      cases hd
  | cons a rest =>
      have hdeadline : (m.alarm a).deadline = d := by
        simpa [rootDeadline, halarms] using hd
      have hresult : m.rescheduleRootAlarm env = rescheduleDone
          { m with wakelock := m.wakelock ++ [.acquireFailed] } Timespec.zero env := by
        simp only [rescheduleRootAlarm, halarms, hdeadline]
        rw [if_pos hshort, if_neg (by simp [hset]), if_neg (by simp [hacquire])]
      rw [hresult]
      simp [Timers.Wakes, Covered, timers, rescheduleDone, timerSettime, Timespec.zero]

/-- A call that does not fail is as one in which the wakelock is acquired. -/
theorem rescheduleRootAlarm_of_not_acquireFails {m : AlarmState} {env : RescheduleEnv}
    (h : ¬ AcquireFails m env) :
    m.rescheduleRootAlarm env = m.rescheduleRootAlarm { env with wakelockAcquire := true } := by
  cases hacquire : env.wakelockAcquire with
  | true => rw [← hacquire]
  | false =>
      cases halarms : m.alarms with
      | nil =>
          simp only [rescheduleRootAlarm, halarms]
          rfl
      | cons a rest =>
          have hroot : m.rootDeadline = some (m.alarm a).deadline := by
            simp [rootDeadline, halarms]
          simp only [rescheduleRootAlarm, halarms]
          by_cases hshort : ((m.alarm a).deadline - env.now).toInt64 <
              timerIntervalForWakelockInMs
          · have hset : m.timerSet = true := by
              by_contra hset
              exact h ⟨by simpa using hset, hacquire, _, hroot, hshort⟩
            rw [if_pos hshort, if_pos hset, if_pos hshort, if_pos hset]
            rfl
          · rw [if_neg hshort, if_neg hshort]
            rfl

theorem rescheduleRootAlarm_wakes_of_covered {m : AlarmState} {env : RescheduleEnv}
    (hcovered : AcquireFails m env → Covered m) (hwakeup : env.wakeupOutcome ≠ .dropped)
    (hroot : ∀ d, m.rootDeadline = some d → d ≠ 0) :
    (m.rescheduleRootAlarm env).timers.Wakes m.rootDeadline := by
  by_cases hfails : AcquireFails m env
  · exact (wakes_iff_covered hfails).mpr (hcovered hfails)
  · rw [rescheduleRootAlarm_of_not_acquireFails hfails]
    exact rescheduleRootAlarm_wakes m _ rfl hwakeup hroot

theorem EndsWith.wakes {cs : List (AlarmState × RescheduleEnv)} {m m' : AlarmState}
    (h : EndsWith cs m m') (hcovered : ∀ c ∈ cs, AcquireFails c.1 c.2 → Covered c.1)
    (hwakeup : ∀ c ∈ cs, c.2.wakeupOutcome ≠ .dropped)
    (hroot : ∀ d, m'.rootDeadline = some d → d ≠ 0)
    (hkept : cs = [] → m.timers.Wakes m.rootDeadline) : m'.timers.Wakes m'.rootDeadline := by
  unfold EndsWith at h
  split at h
  · rename_i hnone
    rw [h.1, h.2]
    exact hkept (List.getLast?_eq_none_iff.mp hnone)
  · rename_i base env hlast
    rw [h.2] at hroot
    rw [h.1, h.2]
    have hmem := List.mem_of_getLast? hlast
    exact rescheduleRootAlarm_wakes_of_covered (hcovered (base, env) hmem)
      (hwakeup (base, env) hmem) hroot

end AlarmState

open AlarmState

namespace System

/-- The calls of `reschedule_root_alarm` in a step, with the states they are made in. -/
def rescheduleCalls (s : System) : Label → List (AlarmState × RescheduleEnv)
  | .set r env => s.mod.alarmSetInternalReschedules r env
  | .cancel a env => s.mod.alarmCancelReschedules a env
  | .dispatch env => s.mod.callbackDispatchReschedules env
  | _ => []

/-- They are all of them: a step makes the kernel calls of these and no others. -/
theorem calls_eq_flatMap (s : System) (l : Label) :
    s.calls l = (s.rescheduleCalls l).flatMap fun c => c.1.rescheduleRootAlarmCalls c.2 := by
  cases l with
  | set r env =>
      simp only [calls, rescheduleCalls, alarmSetInternalCalls, alarmSetInternalReschedules]
      exact scheduleNextInstanceCalls_eq_flatMap _ _ _
  | cancel a env =>
      simp only [calls, rescheduleCalls, alarmCancelCalls, alarmCancelReschedules]
      split_ifs <;> simp
  | dispatch env =>
      simp only [calls, rescheduleCalls]
      cases halarms : s.mod.alarms with
      | nil => simp [callbackDispatchCalls, callbackDispatchReschedules, halarms]
      | cons a rest =>
          simp only [callbackDispatchCalls, callbackDispatchReschedules, halarms]
          split_ifs
          · simp
          · generalize ({ s.mod with alarms := (a :: rest).erase a }.modify a fun al =>
              { al with prevDeadline := al.deadline }) = base
            cases base.scheduleNextInstance a env.schedule with
            | error e => rfl
            | ok m' =>
                rw [scheduleNextInstanceCalls_eq_flatMap, List.flatMap_append]
                simp
          · simp
  | _ => rfl

theorem scheduleNextInstanceReschedules_env {m : AlarmState} {a : AlarmPtr}
    {env : ScheduleEnv} {c : AlarmState × RescheduleEnv}
    (hc : c ∈ m.scheduleNextInstanceReschedules a env) : c.2 = env.reschedule := by
  unfold scheduleNextInstanceReschedules at hc
  dsimp only at hc
  split_ifs at hc <;> simp at hc
  · rw [hc]
  · rw [hc]

theorem mem_reschedules {s : System} {l : Label} {c : AlarmState × RescheduleEnv}
    (hc : c ∈ s.rescheduleCalls l) : c.2 ∈ l.reschedules := by
  cases l with
  | set r env =>
      exact List.mem_singleton.mpr (scheduleNextInstanceReschedules_env hc)
  | cancel a env =>
      simp only [rescheduleCalls, alarmCancelReschedules] at hc
      split_ifs at hc
      · rw [List.mem_singleton.mp hc]
        exact List.mem_singleton.mpr rfl
      · cases hc
  | dispatch env =>
      have hlast : ∀ m : AlarmState, c ∈ [(m, env.reschedule)] →
          c.2 ∈ (Label.dispatch env).reschedules := by
        intro m hc
        rw [List.mem_singleton.mp hc]
        exact List.mem_cons_of_mem _ (List.mem_singleton.mpr rfl)
      simp only [rescheduleCalls, callbackDispatchReschedules] at hc
      split at hc
      · exact hlast _ hc
      · split_ifs at hc
        · exact hlast _ hc
        · split at hc
          · cases hc
          · rcases List.mem_append.mp hc with hc | hc
            · exact List.mem_cons.mpr (.inl (scheduleNextInstanceReschedules_env hc))
            · exact hlast _ hc
        · exact hlast _ hc
  | _ => cases hc

/-- Whenever the wakelock cannot be acquired, something else wakes the dispatcher. -/
def FailuresCovered (s : System) (l : Label) : Prop :=
  ∀ c ∈ s.rescheduleCalls l, AcquireFails c.1 c.2 → Covered c.1

instance (s : System) (l : Label) : Decidable (FailuresCovered s l) :=
  inferInstanceAs (Decidable (∀ c ∈ s.rescheduleCalls l, AcquireFails c.1 c.2 → Covered c.1))

/-- The assumptions under which no alarm is lost, without that about the wakelock. -/
def Withstands (home : AlarmPtr → QueuePtr) (s : System) (l : Label) : Prop :=
  OneQueue home s l ∧ FailuresCovered s l ∧ WakeupNotifies s l ∧ ClockPositive s l ∧
    NoWrap s l

instance (home : AlarmPtr → QueuePtr) (s : System) (l : Label) :
    Decidable (Withstands home s l) :=
  inferInstanceAs (Decidable (_ ∧ _))

/-- Unless the dispatcher has a token, something will wake it for the front alarm. -/
theorem wakes_step_of_covered {home : AlarmPtr → QueuePtr} {s s' : System} {l : Label}
    (hs : Sound home s) (hlisted : ListedDeadlines (· ≠ 0) s'.mod)
    (hcovered : FailuresCovered s l) (hwakeup : WakeupNotifies s l)
    (hstep : s.step l = .ok s')
    (h : s.dispatcher ≠ .token → s.mod.timers.Wakes s.mod.rootDeadline)
    (htoken' : s'.dispatcher ≠ .token) :
    s'.mod.timers.Wakes s'.mod.rootDeadline := by
  have hroot : ∀ d, s'.mod.rootDeadline = some d → d ≠ 0 := fun d => hlisted.rootDeadline
  have hnotifies : ∀ c ∈ s.rescheduleCalls l, c.2.wakeupOutcome ≠ .dropped :=
    fun c hc => hwakeup c.2 (mem_reschedules hc)
  cases step_cases hstep with
  | set _ hmod =>
      exact (alarmSetInternal_endsWith hmod).wakes hcovered hnotifies hroot fun _ => h htoken'
  | cancel _ =>
      exact (alarmCancel_endsWith s.mod _ _).wakes hcovered hnotifies hroot fun _ => h htoken'
  | dispatchNone _ hmod =>
      obtain ⟨hends, hne⟩ := callbackDispatch_endsWith hmod
      exact hends.wakes hcovered hnotifies hroot fun hnil => absurd hnil hne
  | dispatchSome _ hmod =>
      obtain ⟨hends, hne⟩ := callbackDispatch_endsWith hmod
      exact hends.wakes hcovered hnotifies hroot fun hnil => absurd hnil hne
  | _ =>
      -- no other step makes a call
      refine wakes_step hs hlisted ?_ hwakeup hstep h htoken'
      exact fun env henv => absurd henv List.not_mem_nil

/-! ## Runs with failures -/

/-- A call of `reschedule_root_alarm` that cannot acquire the wakelock keeps the root alarm
alive exactly if something else was to wake the dispatcher for it; and if that is so at all
such calls of a run, then no alarm is lost. -/
theorem failed_wakelock_iff (isPeriodic : AlarmPtr → Bool) (capacity : QueuePtr → UInt64) :
    (∀ s l s', Reachable (Next System.step) (init isPeriodic capacity) s →
      s.step l = .ok s' → ∀ c ∈ s.rescheduleCalls l, AcquireFails c.1 c.2 →
        ((c.1.rescheduleRootAlarm c.2).timers.Wakes c.1.rootDeadline ↔ Covered c.1)) ∧
    ∀ home s, Reachable (Guarded (Withstands home) (Next System.step))
        (init isPeriodic capacity) s → ∀ f rest, s.mod.alarms = f :: rest →
      s.mod.timer = some (Timespec.ofDeadline (s.mod.alarm f).deadline) ∨
        s.mod.wakeupTimer = some (Timespec.ofDeadline (s.mod.alarm f).deadline) ∨
        0 < s.mod.alarmExpired ∨ s.dispatcher = .token := by
  refine ⟨fun s l s' _ _ c _ hfails => wakes_iff_covered hfails, ?_⟩
  intro home s h f rest hfront
  refine wakes_of_reachable home ?_ ?_ h hfront
  · rintro s l ⟨hone, _, _, hpos, hfits⟩
    exact ⟨hone, nonzeroDeadlines_of_noWrap hpos hfits⟩
  · intro s l s' hsound hlisted hguard hstep
    exact wakes_step_of_covered hsound hlisted hguard.2.1 hguard.2.2.1 hstep

def failingAt (t : PeriodMs) : SetEnv := ⟨t, t, ⟨t, false, .armed, .armed⟩⟩

/-- An alarm is set for a late deadline, and again, for the same deadline, when that has
come close: the wakeup timer is still armed for it. -/
def setAgain : List Label :=
  [.set ⟨1, 10000, 100, 0, 7⟩ (setAt 10), .set ⟨1, 1010, 100, 0, 7⟩ (failingAt 9000)]

theorem failed_wakelock_iff_setAgain :
    ∃ s : System, s.mod.alarms = [1] ∧
      (s.mod.timer = some (Timespec.ofDeadline (s.mod.alarm 1).deadline) ∨
        s.mod.wakeupTimer = some (Timespec.ofDeadline (s.mod.alarm 1).deadline) ∨
        0 < s.mod.alarmExpired ∨ s.dispatcher = .token) := by
  have hend : ((exec (fun s l => decide (Withstands (fun _ => 7) s l)) System.step
      (init (fun _ => false) fun _ => 10) setAgain).any fun s =>
        decide (s.mod.alarms = [1])) = true := by
    decide +kernel
  obtain ⟨s, hs, hend⟩ := (Option.any_eq_true _ _).mp hend
  have halarms := of_decide_eq_true hend
  exact ⟨s, halarms, (failed_wakelock_iff _ _).2 _ s (Reachable.of_exec hs) 1 [] halarms⟩

/-! ## A lost alarm -/

def ByClient : Label → Prop
  | .set _ _ => True
  | .cancel _ _ => True
  | _ => False

/-- Nothing is to wake the dispatcher. -/
def Asleep (s : System) : Prop :=
  s.mod.timer = none ∧ s.mod.wakeupTimer = none ∧ s.mod.alarmExpired = 0 ∧
    s.dispatcher = .waiting

/-- Only a client gets the module out of that state. -/
theorem Asleep.step {s s' : System} {l : Label} (h : Asleep s) (hl : ¬ ByClient l)
    (hstep : s.step l = .ok s') : Asleep s' ∧ s'.mod.alarms = s.mod.alarms := by
  obtain ⟨htimer, hwakeup, hexpired, hwaiting⟩ := h
  cases step_cases hstep with
  | set _ _ => exact absurd trivial hl
  | cancel _ => exact absurd trivial hl
  | take _ htoken => exact absurd hexpired htoken
  | dispatchNone htoken _ => exact absurd (hwaiting.symm.trans htoken) (by simp)
  | dispatchSome htoken _ => exact absurd (hwaiting.symm.trans htoken) (by simp)
  | enqueue htransit _ => exact absurd (hwaiting.symm.trans htransit) (by simp)
  | dequeueNone _ _ hmod =>
      obtain ⟨rfl, -⟩ := alarmQueueReady_none hmod
      exact ⟨⟨htimer, hwakeup, hexpired, hwaiting⟩, rfl⟩
  | @dequeueSome t q mod i _ _ hmod =>
      have htimers := alarmQueueReady_timers s.mod q
      rw [hmod] at htimers
      have halarms := (alarmQueueReady_some hmod).2.2.2.1
      refine ⟨⟨?_, ?_, ?_, hwaiting⟩, halarms⟩
      · exact (congrArg Timers.timer htimers).trans htimer
      · exact (congrArg Timers.wakeupTimer htimers).trans hwakeup
      · exact (congrArg Timers.alarmExpired htimers).trans hexpired
  | invoke _ => exact ⟨⟨htimer, hwakeup, hexpired, hwaiting⟩, rfl⟩
  | finish _ => exact ⟨⟨htimer, hwakeup, hexpired, hwaiting⟩, rfl⟩
  | expireTimer harmed =>
      rw [htimer] at harmed
      cases harmed
  | expireWakeupTimer harmed =>
      rw [hwakeup] at harmed
      cases harmed

theorem Asleep.alarms_eq {s s' : System} {ls : List Label} (h : Asleep s)
    (hrun : Run (Guarded (fun _ l => ¬ ByClient l) (Next System.step)) s ls s') :
    s'.mod.alarms = s.mod.alarms := by
  refine (hrun.invariant (I := fun s' => Asleep s' ∧ s'.mod.alarms = s.mod.alarms) ?_
    ⟨h, rfl⟩).2
  rintro s₁ l s₂ ⟨hasleep, hkept⟩ ⟨hl, hnext⟩
  obtain ⟨hasleep', halarms⟩ := hasleep.step hl hnext
  exact ⟨hasleep', halarms.trans hkept⟩

/-- The first set of an alarm fails to acquire the wakelock: the alarm is never
dispatched. -/
theorem alarm_lost_without_wakelock :
    ∃ s c, (init (fun _ => false) fun _ => 10).step
        (.set ⟨1, 100, 100, 0, 7⟩ (failingAt 10)) = .ok s ∧
      c ∈ (init (fun _ => false) fun _ => 10).rescheduleCalls
        (.set ⟨1, 100, 100, 0, 7⟩ (failingAt 10)) ∧
      AcquireFails c.1 c.2 ∧
      ¬ (c.1.rescheduleRootAlarm c.2).timers.Wakes c.1.rootDeadline ∧
      ∀ ls s', Run (Guarded (fun _ l => ¬ ByClient l) (Next System.step)) s ls s' →
        s'.mod.alarms = [1] := by
  have hcall : (((init (fun _ => false) fun _ => 10).rescheduleCalls
      (.set ⟨1, 100, 100, 0, 7⟩ (failingAt 10))).any fun c =>
        decide (AcquireFails c.1 c.2 ∧ ¬ Covered c.1)) = true := by
    decide +kernel
  obtain ⟨c, hc, hfails⟩ := List.any_eq_true.mp hcall
  obtain ⟨hfails, hbare⟩ := of_decide_eq_true hfails
  refine ⟨_, c, rfl, hc, hfails, (wakes_iff_covered hfails).not.mpr hbare, ?_⟩
  intro ls s' hrun
  exact Asleep.alarms_eq ⟨rfl, rfl, rfl, rfl⟩ hrun

end System

end Alarm

end Osi
