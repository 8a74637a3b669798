import Osi.Alarm.Rescheduling

/-!
# No lost alarm

As long as an alarm is in the list, something will let the dispatcher look at
it: a timer is armed for the deadline of the front alarm, a token is pending, or
the dispatcher has taken a token and not yet the monitor. While the dispatcher
has a token the timers may say anything, because its iteration always ends with
`reschedule_root_alarm`; so the invariant is about all other states.
-/

namespace Osi

namespace Alarm

open Transition AlarmState

/-- Something will post a token for the front deadline `r`, or has done so. -/
def Timers.Wakes (t : Timers) (r : Option PeriodMs) : Prop :=
  ∀ d, r = some d →
    t.timer = some (Timespec.ofDeadline d) ∨
      t.wakeupTimer = some (Timespec.ofDeadline d) ∨ 0 < t.alarmExpired

theorem rescheduleDone_alarmExpired_le (m : AlarmState) (v : Timespec)
    (env : RescheduleEnv) :
    m.alarmExpired ≤ (m.rescheduleDone v env).alarmExpired := by
  simp only [rescheduleDone]
  omega

/-- Programming the timer for a non-zero time arms it, or posts a token: a timer
that has silently disarmed itself is seen by `timer_gettime`. -/
theorem rescheduleDone_wakes (m : AlarmState) {v : Timespec} (env : RescheduleEnv)
    (hv : v ≠ Timespec.zero) :
    (m.rescheduleDone v env).timer = some v ∨
      0 < (m.rescheduleDone v env).alarmExpired := by
  have hset := Timespec.ne_zero_iff.mp hv
  cases hout : env.timerOutcome with
  | armed => simp [rescheduleDone, timerSettime, hout, hv]
  | expired => simp [rescheduleDone, timerSettime, hout, hv, hset]
  | dropped => simp [rescheduleDone, timerSettime, hout, hv, hset]

/-- `reschedule_root_alarm` leaves a wake-up for a non-zero front deadline, if
the wakelock can be acquired. -/
theorem rescheduleRootAlarm_wakes (m : AlarmState) (env : RescheduleEnv)
    (hacquire : env.wakelockAcquire = true) (hwakeup : env.wakeupOutcome ≠ .dropped)
    (hroot : ∀ d, m.rootDeadline = some d → d ≠ 0) :
    (m.rescheduleRootAlarm env).timers.Wakes m.rootDeadline := by
  intro d hd
  have hzero := Timespec.ofDeadline_ne_zero (hroot d hd)
  unfold rescheduleRootAlarm
  split
  · rename_i hnil
    rw [rootDeadline_eq_none_iff.mpr hnil] at hd
    cases hd
  · rename_i next rest hcons
    have hdeadline : (m.alarm next).deadline = d := by
      simpa [rootDeadline, hcons] using hd
    dsimp only
    rw [hdeadline]
    split_ifs with hshort hset
    · rcases rescheduleDone_wakes { m with wakeupTimer := some Timespec.endOfTime }
        env hzero with htimer | hpost
      · exact Or.inl htimer
      · exact Or.inr (Or.inr hpost)
    · rcases rescheduleDone_wakes
        { m with
          wakelock := m.wakelock ++ [.acquired]
          wakeupTimer := some Timespec.endOfTime } env hzero with htimer | hpost
      · exact Or.inl htimer
      · exact Or.inr (Or.inr hpost)
    · cases hout : env.wakeupOutcome with
      | armed =>
          refine Or.inr (Or.inl ?_)
          simp [timers, rescheduleDone, timerSettime, hzero]
      | expired =>
          right; right
          rw [timers_alarmExpired]
          refine lt_of_lt_of_le ?_ (rescheduleDone_alarmExpired_le _ _ _)
          simp [timerSettime, hzero]
      | dropped => exact absurd hout hwakeup

theorem Rescheduled.wakes {r : Option PeriodMs} {envs : List RescheduleEnv}
    {t t' : Timers} (h : Rescheduled r envs t t')
    (hacquire : ∀ env ∈ envs, env.wakelockAcquire = true)
    (hwakeup : ∀ env ∈ envs, env.wakeupOutcome ≠ .dropped)
    (hroot : ∀ d, r = some d → d ≠ 0) : t'.Wakes r := by
  cases h with
  | once hr henv =>
      subst hr
      exact rescheduleRootAlarm_wakes _ _ (hacquire _ henv) (hwakeup _ henv) hroot
  | again _ hr henv =>
      subst hr
      exact rescheduleRootAlarm_wakes _ _ (hacquire _ henv) (hwakeup _ henv) hroot

namespace System

/-- The assumptions about a run under which no alarm is lost. -/
def Dependable (home : AlarmPtr → QueuePtr) (s : System) (l : Label) : Prop :=
  OneQueue home s l ∧ WakelockSucceeds s l ∧ WakeupNotifies s l ∧ ClockPositive s l ∧
    NoWrap s l

instance (home : AlarmPtr → QueuePtr) (s : System) (l : Label) :
    Decidable (Dependable home s l) :=
  inferInstanceAs (Decidable (_ ∧ _))

theorem nonzeroDeadlines_of_noWrap {s : System} {l : Label}
    (hpos : ClockPositive s l) (hfits : NoWrap s l) : NonzeroDeadlines s l := by
  cases l with
  | set r env => exact nextDeadline_ne_zero hfits (hpos _ (by simp [Label.readings]))
  | dispatch env =>
      have hnow : 0 < env.schedule.now := hpos _ (by simp [Label.readings])
      unfold NonzeroDeadlines Scheduling
      unfold NoWrap Scheduling at hfits
      cases halarms : s.mod.alarms with
      | nil => trivial
      | cons a rest =>
          rw [halarms] at hfits
          intro hper hdue
          exact nextDeadline_ne_zero (hfits hper hdue) hnow
  | _ => trivial

end System

/-- The invariant of a step: unless the dispatcher has a token, something will
wake it for the front alarm. -/
theorem wakes_step {home : AlarmPtr → QueuePtr} {s s' : System} {l : Label}
    (hs : Sound home s) (hlisted : ListedDeadlines (· ≠ 0) s'.mod)
    (hacquire : System.WakelockSucceeds s l) (hwakeup : System.WakeupNotifies s l)
    (hstep : s.step l = .ok s')
    (h : s.dispatcher ≠ .token → s.mod.timers.Wakes s.mod.rootDeadline)
    (htoken' : s'.dispatcher ≠ .token) :
    s'.mod.timers.Wakes s'.mod.rootDeadline := by
  cases System.step_timers hs hstep with
  | keep htimers hroot htoken =>
      rw [htimers, hroot]
      exact h fun ht => htoken' (htoken ht)
  | rescheduled hres => exact hres.wakes hacquire hwakeup fun d => hlisted.rootDeadline
  | expired _ _ _ hpost => exact fun _ _ => Or.inr (Or.inr hpost)
  | taken _ _ _ htaken => exact absurd htaken htoken'

/-- The run lemma for a condition whose steps all keep the invariant. -/
theorem wakes_of_reachable {guard : System → Label → Prop} (home : AlarmPtr → QueuePtr)
    (hguard : ∀ s l, guard s l → System.OneQueue home s l ∧ System.NonzeroDeadlines s l)
    (hstep : ∀ s l s', Sound home s → ListedDeadlines (· ≠ 0) s'.mod → guard s l →
      s.step l = .ok s' →
      (s.dispatcher ≠ .token → s.mod.timers.Wakes s.mod.rootDeadline) →
      s'.dispatcher ≠ .token → s'.mod.timers.Wakes s'.mod.rootDeadline)
    {isPeriodic : AlarmPtr → Bool} {capacity : QueuePtr → UInt64} {s : System}
    (h : Reachable (Guarded guard (Next System.step)) (System.init isPeriodic capacity) s)
    {f : AlarmPtr} {rest : List AlarmPtr} (hfront : s.mod.alarms = f :: rest) :
    s.mod.timer = some (Timespec.ofDeadline (s.mod.alarm f).deadline) ∨
      s.mod.wakeupTimer = some (Timespec.ofDeadline (s.mod.alarm f).deadline) ∨
      0 < s.mod.alarmExpired ∨ s.dispatcher = .token := by
  have hwakes : s.dispatcher ≠ .token → s.mod.timers.Wakes s.mod.rootDeadline := by
    refine h.induct (I := fun s =>
      s.dispatcher ≠ .token → s.mod.timers.Wakes s.mod.rootDeadline) ?_ ?_
    · intro _ d hd
      exact absurd hd (by simp [System.init, AlarmState.init, rootDeadline])
    · intro s l s' hreach hwakes hlast
      have hsound := sound_of_reachable (fun s l hg => (hguard s l hg).1) hreach
      have hlisted := listedDeadlines_of_reachable (p := (· ≠ 0)) hguard (hreach.snoc hlast)
      exact hstep s l s' hsound hlisted hlast.1 hlast.2 hwakes
  by_cases htoken : s.dispatcher = .token
  · exact Or.inr (Or.inr (Or.inr htoken))
  · have hd : s.mod.rootDeadline = some (s.mod.alarm f).deadline := by
      simp [rootDeadline, hfront]
    rcases hwakes htoken _ hd with htimer | hwakeup | hpost
    · exact Or.inl htimer
    · exact Or.inr (Or.inl hwakeup)
    · exact Or.inr (Or.inr (Or.inl hpost))

/-- In every state, if the list is not empty, a timer is armed for its front
alarm, a token is pending, or the dispatcher has a token and has not yet run the
iteration. -/
theorem no_lost_alarm (isPeriodic : AlarmPtr → Bool) (capacity : QueuePtr → UInt64)
    (home : AlarmPtr → QueuePtr) (s : System)
    (h : Reachable (Guarded (System.Dependable home) (Next System.step))
      (System.init isPeriodic capacity) s)
    (f : AlarmPtr) (rest : List AlarmPtr) (hfront : s.mod.alarms = f :: rest) :
    s.mod.timer = some (Timespec.ofDeadline (s.mod.alarm f).deadline) ∨
      s.mod.wakeupTimer = some (Timespec.ofDeadline (s.mod.alarm f).deadline) ∨
      0 < s.mod.alarmExpired ∨ s.dispatcher = .token := by
  refine wakes_of_reachable home ?_ ?_ h hfront
  · rintro s l ⟨hone, _, _, hpos, hfits⟩
    exact ⟨hone, System.nonzeroDeadlines_of_noWrap hpos hfits⟩
  · intro s l s' hsound hlisted hguard hstep
    exact wakes_step hsound hlisted hguard.2.1 hguard.2.2.1 hstep

/-- After the dispatch of one of two alarms the timer is armed for the other. -/
theorem no_lost_alarm_oneDispatch :
    ∃ s : System, s.mod.alarms = [2] ∧
      (s.mod.timer = some (Timespec.ofDeadline (s.mod.alarm 2).deadline) ∨
        s.mod.wakeupTimer = some (Timespec.ofDeadline (s.mod.alarm 2).deadline) ∨
        0 < s.mod.alarmExpired ∨ s.dispatcher = .token) := by
  have hend : ((exec (fun s l => decide (System.Dependable (fun _ => 7) s l))
      System.step (System.init (· == 2) fun _ => 10) oneDispatch).any fun s =>
        decide (s.mod.alarms = [2])) = true := by
    decide
  obtain ⟨s, hs, hend⟩ := (Option.any_eq_true _ _).mp hend
  have halarms := of_decide_eq_true hend
  exact ⟨s, halarms, no_lost_alarm _ _ _ s (Reachable.of_exec hs) 2 [] halarms⟩

end Alarm

end Osi
