import Osi.Alarm.Wakeup

/-!
# Stale wakeups

The branches of `reschedule_root_alarm` program different timers. `timer` is programmed in
all of them, and `wakeup_timer` whenever the list has a front alarm; with an empty list the
code goes to the label `done` and leaves `wakeup_timer` as it is. So a wakeup can be stale
only while the list is empty, after a step that took the last alarm out of it.
-/

namespace Osi

namespace Alarm

open Transition AlarmState

/-- The timer is not armed, or put off to the end of time. -/
def Idle (t : Timer) : Prop := t = none ∨ t = some Timespec.endOfTime

instance (t : Timer) : Decidable (Idle t) := inferInstanceAs (Decidable (_ ∨ _))

def ForRoot (r : Option PeriodMs) (t : Timer) : Prop :=
  Idle t ∨ ∃ d, r = some d ∧ t = some (Timespec.ofDeadline d)

theorem ForRoot.idle {t : Timer} (h : ForRoot none t) : Idle t := by
  rcases h with hidle | ⟨d, hd, -⟩
  · exact hidle
  · cases hd

theorem ForRoot.or_none {r : Option PeriodMs} {t t' : Timer} (h : ForRoot r t)
    (ht : t' = t ∨ t' = none) : ForRoot r t' := by
  rcases ht with rfl | rfl
  · exact h
  · exact Or.inl (Or.inl rfl)

/-- No timer is armed for a deadline that no alarm of the list has. -/
def NoStaleWakeup (m : AlarmState) : Prop :=
  ∀ t ∈ [m.timer, m.wakeupTimer],
    Idle t ∨ ∃ a ∈ m.alarms, t = some (Timespec.ofDeadline (m.alarm a).deadline)

theorem NoStaleWakeup.idle {m : AlarmState} (h : NoStaleWakeup m) (hnil : m.alarms = []) :
    Idle m.timer ∧ Idle m.wakeupTimer := by
  have hidle : ∀ t ∈ [m.timer, m.wakeupTimer], Idle t := by
    intro t ht
    rcases h t ht with hidle | ⟨a, ha, -⟩
    · exact hidle
    · rw [hnil] at ha
      exact absurd ha List.not_mem_nil
  exact ⟨hidle _ (by simp), hidle _ (by simp)⟩

/-! ## Programming the timers -/

theorem timerSettime_forRoot (d : PeriodMs) (outcome : ArmOutcome) :
    ForRoot (some d) (timerSettime (Timespec.ofDeadline d) outcome).1 := by
  unfold timerSettime
  split
  · exact Or.inl (Or.inl rfl)
  · cases outcome with
    | armed => exact Or.inr ⟨d, rfl, rfl⟩
    | expired => exact Or.inl (Or.inl rfl)
    | dropped => exact Or.inl (Or.inl rfl)

theorem timerSettime_zero (outcome : ArmOutcome) :
    (timerSettime Timespec.zero outcome).1 = none := by
  unfold timerSettime
  rw [if_pos rfl]

theorem rescheduleRootAlarm_timer (m : AlarmState) (env : RescheduleEnv) :
    ForRoot m.rootDeadline (m.rescheduleRootAlarm env).timer := by
  have hzero : ∀ m' : AlarmState, ForRoot m.rootDeadline
      (m'.rescheduleDone Timespec.zero env).timer := by
    intro m'
    exact Or.inl (Or.inl (timerSettime_zero env.timerOutcome))
  cases halarms : m.alarms with
  | nil =>
      simp only [rescheduleRootAlarm, halarms]
      exact hzero m
  | cons a rest =>
      have hroot : m.rootDeadline = some (m.alarm a).deadline := by
        simp [rootDeadline, halarms]
      simp only [rescheduleRootAlarm, halarms]
      split_ifs with hshort hset hacquire
      · rw [hroot]
        exact timerSettime_forRoot _ env.timerOutcome
      · rw [hroot]
        exact timerSettime_forRoot _ env.timerOutcome
      · exact hzero _
      · exact hzero _

/-- `wakeup_timer` is programmed anew if there is a front alarm and the wakelock can be
acquired. -/
theorem rescheduleRootAlarm_wakeupTimer (m : AlarmState) {env : RescheduleEnv}
    (hacquire : env.wakelockAcquire = true) :
    (m.rootDeadline = none → (m.rescheduleRootAlarm env).wakeupTimer = m.wakeupTimer) ∧
      (m.rootDeadline ≠ none →
        ForRoot m.rootDeadline (m.rescheduleRootAlarm env).wakeupTimer) := by
  cases halarms : m.alarms with
  | nil =>
      have hroot : m.rootDeadline = none := rootDeadline_eq_none_iff.mpr halarms
      simp only [rescheduleRootAlarm, halarms]
      exact ⟨fun _ => rfl, fun hsome => absurd hroot hsome⟩
  | cons a rest =>
      have hroot : m.rootDeadline = some (m.alarm a).deadline := by
        simp [rootDeadline, halarms]
      refine ⟨fun hnone => absurd (hroot.symm.trans hnone) (Option.some_ne_none _), ?_⟩
      intro _
      rw [hroot]
      simp only [rescheduleRootAlarm, halarms, hacquire]
      split_ifs with hshort hset
      · exact Or.inl (Or.inr rfl)
      · exact Or.inl (Or.inr rfl)
      · exact timerSettime_forRoot _ _

namespace Rescheduled

variable {r : Option PeriodMs} {envs : List RescheduleEnv} {t t' : Timers}

theorem timer (h : Rescheduled r envs t t') : ForRoot r t'.timer := by
  cases h with
  | once hr _ => exact hr ▸ rescheduleRootAlarm_timer _ _
  | again _ hr _ => exact hr ▸ rescheduleRootAlarm_timer _ _

theorem wakeupTimer (h : Rescheduled r envs t t')
    (hacquire : ∀ env ∈ envs, env.wakelockAcquire = true) :
    (r = none → t'.wakeupTimer = t.wakeupTimer) ∧
      (r ≠ none → ForRoot r t'.wakeupTimer) := by
  induction h with
  | once hr henv =>
      subst hr
      exact rescheduleRootAlarm_wakeupTimer _ (hacquire _ henv)
  | again _ hr henv ih =>
      subst hr
      obtain ⟨hkept, hprogrammed⟩ := rescheduleRootAlarm_wakeupTimer _ (hacquire _ henv)
      refine ⟨?_, hprogrammed⟩
      intro hnone
      exact (hkept hnone).trans (ih.1 hnone)

end Rescheduled

namespace System

/-! ## One step -/

/-- What a step does to the two timers: it reprograms them for the front deadline, or it
disarms some of them at most. -/
def Programs (s : System) (l : Label) (s' : System) : Prop :=
  Rescheduled s'.mod.rootDeadline l.reschedules s.mod.timers s'.mod.timers ∨
    s'.mod.rootDeadline = s.mod.rootDeadline ∧
      (s'.mod.timer = s.mod.timer ∨ s'.mod.timer = none) ∧
      (s'.mod.wakeupTimer = s.mod.wakeupTimer ∨ s'.mod.wakeupTimer = none)

theorem Programs.of_timers {s s' : System} {l : Label}
    (hroot : s'.mod.rootDeadline = s.mod.rootDeadline)
    (htimers : s'.mod.timers = s.mod.timers) : Programs s l s' :=
  Or.inr ⟨hroot, Or.inl (congrArg Timers.timer htimers),
    Or.inl (congrArg Timers.wakeupTimer htimers)⟩

theorem Programs.of_keepsOrReschedules {s s' : System} {l : Label}
    (h : KeepsOrReschedules l.reschedules s.mod s'.mod) : Programs s l s' := by
  rcases h with ⟨htimers, hroot⟩ | hres
  · exact .of_timers hroot htimers
  · exact Or.inl hres

theorem step_programs {home : AlarmPtr → QueuePtr} {s s' : System} {l : Label}
    (hs : Sound home s) (h : s.step l = .ok s') : Programs s l s' := by
  cases step_cases h with
  | set _ hmod => exact .of_keepsOrReschedules (alarmSetInternal_timers hmod)
  | cancel _ => exact .of_keepsOrReschedules (alarmCancel_timers _ _ _)
  | take _ _ => exact Or.inr ⟨rfl, Or.inl rfl, Or.inl rfl⟩
  | dispatchNone _ hmod => exact Or.inl (callbackDispatch_timers hmod)
  | dispatchSome _ hmod => exact Or.inl (callbackDispatch_timers hmod)
  | enqueue _ hmod =>
      obtain ⟨halarm, halarms, _⟩ := callbackDispatchEnqueue_ok hmod
      refine .of_timers ?_ (callbackDispatchEnqueue_timers hmod)
      exact rootDeadline_congr (congrArg _ halarms) fun a _ => by rw [record_mod, halarm]
  | dequeueNone _ _ hmod =>
      obtain ⟨rfl, -⟩ := alarmQueueReady_none hmod
      exact Or.inr ⟨rfl, Or.inl rfl, Or.inl rfl⟩
  | @dequeueSome t q _ i _ _ hmod =>
      have htimers := alarmQueueReady_timers s.mod q
      rw [hmod] at htimers
      exact .of_timers (hs.represents.dequeue_rootDeadline hs.wellformed hmod) htimers
  | invoke _ => exact Or.inr ⟨rfl, Or.inl rfl, Or.inl rfl⟩
  | finish _ =>
      exact Or.inr ⟨modify_rootDeadline _ _ _ fun _ => rfl, Or.inl rfl, Or.inl rfl⟩
  | expireTimer _ => exact Or.inr ⟨rfl, Or.inr rfl, Or.inl rfl⟩
  | expireWakeupTimer _ => exact Or.inr ⟨rfl, Or.inl rfl, Or.inr rfl⟩

/-- The step takes the only alarm out of the list. -/
def Empties (m : AlarmState) : Label → Prop
  | .cancel a _ => m.alarms = [a]
  | .dispatch env =>
      ∃ a, m.alarms = [a] ∧ (m.alarm a).isPeriodic = false ∧ (m.alarm a).deadline ≤ env.now
  | _ => False

instance (m : AlarmState) (l : Label) : Decidable (Empties m l) :=
  match l with
  | .cancel a _ => inferInstanceAs (Decidable (m.alarms = [a]))
  | .dispatch env =>
      match h : m.alarms with
      | [] => isFalse (by simp [Empties, h])
      | [a] =>
          decidable_of_iff ((m.alarm a).isPeriodic = false ∧ (m.alarm a).deadline ≤ env.now)
            (by simp [Empties, h])
      | _ :: _ :: _ => isFalse (by simp [Empties, h])
  | .set _ _ | .take | .enqueue | .dequeue _ _ | .invoke _ _ | .finish _ _
  | .expireTimer _ | .expireWakeupTimer _ => isFalse id

theorem alarms_eq_nil_of_empties {s s' : System} {l : Label} (hempties : Empties s.mod l)
    (h : s.step l = .ok s') : s'.mod.alarms = [] := by
  cases step_cases h with
  | @cancel a env _ =>
      have hlast : s.mod.alarms = [a] := hempties
      rw [record_mod, (alarmCancel_spec s.mod a env).2.1, hlast, List.erase_cons_head]
  | @dispatchNone env mod _ hmod =>
      obtain ⟨a, hlast, -, hdue⟩ := hempties
      have hlater := (callbackDispatch_none hmod).2 a (by simp [hlast])
      exact absurd hlater (UInt64.not_lt.mpr hdue)
  | @dispatchSome env mod b _ hmod =>
      obtain ⟨a, hlast, hsingle, -⟩ := hempties
      obtain ⟨rest, hcons, -, hkind⟩ := callbackDispatch_some hmod
      obtain ⟨rfl, rfl⟩ := List.cons.inj (hlast.symm.trans hcons)
      rcases hkind with ⟨-, -, halarms, -⟩ | ⟨hper, -⟩
      · exact halarms
      · exact absurd (hper.symm.trans hsingle) (by simp)
  | _ => exact absurd hempties id

theorem empties_of_alarms_eq_nil {l : Label} {m m' : AlarmState} {x x' : Option AlarmPtr}
    (hw : Wellformed m x) (h : Effect l m x m' x') (hnil : m'.alarms = []) :
    m.alarms = [] ∨ Empties m l := by
  have hmem : ∀ a, a ∉ m'.alarms := by
    intro a
    rw [hnil]
    exact List.not_mem_nil
  cases h with
  | @set _ _ r env hm =>
      obtain ⟨-, halarms, -⟩ := alarmSetInternal_ok hm
      refine absurd ?_ (hmem r.alarm)
      rw [halarms, mem_inserted]
      exact Or.inl rfl
  | @cancel _ a env =>
      rw [(alarmCancel_spec m a env).2.1] at hnil
      exact List.erase_eq_nil_iff.mp hnil
  | @dispatch _ _ a env hm =>
      obtain ⟨rest, hcons, hdue, hsingle | hperiodic⟩ := callbackDispatch_some hm
      · obtain ⟨hsingle, -, halarms, -⟩ := hsingle
        rw [hnil] at halarms
        exact Or.inr ⟨a, halarms ▸ hcons, hsingle, hdue⟩
      · obtain ⟨hper, -, hcb⟩ := hperiodic
        have hlisted : a ∈ m.alarms := by simp [hcons]
        obtain ⟨halarms, -⟩ := hcb (hw.callback_of_periodic a hper hlisted)
        refine absurd ?_ (hmem a)
        rw [halarms, mem_inserted]
        exact Or.inl rfl
  | enqueue hm =>
      rw [(callbackDispatchEnqueue_ok hm).2.1] at hnil
      exact Or.inl hnil
  | dequeue hm =>
      rw [(alarmQueueReady_some hm).2.2.2.1] at hnil
      exact Or.inl hnil
  | same hm =>
      rw [hm.alarms] at hnil
      exact Or.inl hnil

/-! ## Whole runs -/

def Acquiring (home : AlarmPtr → QueuePtr) (s : System) (l : Label) : Prop :=
  OneQueue home s l ∧ WakelockSucceeds s l

instance (home : AlarmPtr → QueuePtr) (s : System) (l : Label) :
    Decidable (Acquiring home s l) :=
  inferInstanceAs (Decidable (_ ∧ _))

/-- The only alarm is taken out of the list only when `wakeup_timer` is idle. -/
def Cleared (s : System) (l : Label) : Prop :=
  Empties s.mod l → Idle s.mod.wakeupTimer

instance (s : System) (l : Label) : Decidable (Cleared s l) :=
  inferInstanceAs (Decidable (Empties s.mod l → Idle s.mod.wakeupTimer))

def Fresh (m : AlarmState) : Prop :=
  ForRoot m.rootDeadline m.timer ∧ ForRoot m.rootDeadline m.wakeupTimer

theorem Fresh.noStaleWakeup {m : AlarmState} (h : Fresh m) : NoStaleWakeup m := by
  have hlisted : ∀ t, ForRoot m.rootDeadline t → Idle t ∨ ∃ a ∈ m.alarms,
      t = some (Timespec.ofDeadline (m.alarm a).deadline) := by
    rintro t (hidle | ⟨d, hd, ht⟩)
    · exact Or.inl hidle
    · obtain ⟨a, ha, rfl⟩ := Option.map_eq_some_iff.mp hd
      exact Or.inr ⟨a, List.mem_of_mem_head? ha, ht⟩
  intro t ht
  rcases List.mem_cons.mp ht with rfl | ht
  · exact hlisted _ h.1
  · obtain rfl := List.mem_singleton.mp ht
    exact hlisted _ h.2

section Step

variable {home : AlarmPtr → QueuePtr} {s s' : System} {l : Label}

theorem wakeupTimer_of_alarms_eq_nil (hs : Sound home s) (hl : WakelockSucceeds s l)
    (hstep : s.step l = .ok s') (hempties : Empties s.mod l) :
    s'.mod.wakeupTimer = s.mod.wakeupTimer := by
  have hroot' := rootDeadline_eq_none_iff.mpr (alarms_eq_nil_of_empties hempties hstep)
  rcases step_programs hs hstep with hres | ⟨hroot, -⟩
  · exact (hres.wakeupTimer hl).1 hroot'
  · -- the front deadline has changed
    rw [hroot', eq_comm, rootDeadline_eq_none_iff] at hroot
    cases l with
    | cancel a env =>
        have hlast : s.mod.alarms = [a] := hempties
        exact absurd (hlast.symm.trans hroot) (List.cons_ne_nil _ _)
    | dispatch env =>
        obtain ⟨a, hlast, -⟩ := hempties
        exact absurd (hlast.symm.trans hroot) (List.cons_ne_nil _ _)
    | _ => exact absurd hempties id

theorem Fresh.step (h : Fresh s.mod) (hs : Sound home s) (hl : WakelockSucceeds s l)
    (hcleared : Cleared s l) (hstep : s.step l = .ok s') : Fresh s'.mod := by
  rcases step_programs hs hstep with hres | ⟨hroot, htimer, hwakeup⟩
  · obtain ⟨hkept, hprogrammed⟩ := hres.wakeupTimer hl
    refine ⟨hres.timer, ?_⟩
    by_cases hroot' : s'.mod.rootDeadline = none
    · -- what `wakeup_timer` is left at was idle before
      have hidle : Idle s.mod.wakeupTimer := by
        rcases empties_of_alarms_eq_nil hs.wellformed (step_effect hstep)
          (rootDeadline_eq_none_iff.mp hroot') with hnil | hempties
        · have hroot := rootDeadline_eq_none_iff.mpr hnil
          exact (hroot ▸ h.2).idle
        · exact hcleared hempties
      have hkept' : s'.mod.wakeupTimer = s.mod.wakeupTimer := hkept hroot'
      rw [hkept']
      exact Or.inl hidle
    · exact hprogrammed hroot'
  · rw [Fresh, hroot]
    exact ⟨h.1.or_none htimer, h.2.or_none hwakeup⟩

end Step

theorem fresh_of_reachable {home : AlarmPtr → QueuePtr} {isPeriodic : AlarmPtr → Bool}
    {capacity : QueuePtr → UInt64} {s : System}
    (h : Reachable (Guarded (fun s l => Acquiring home s l ∧ Cleared s l) (Next System.step))
      (init isPeriodic capacity) s) : Fresh s.mod := by
  refine h.induct (I := fun s => Fresh s.mod) ⟨Or.inl (Or.inl rfl), Or.inl (Or.inl rfl)⟩ ?_
  rintro s l s' hreach hfresh ⟨⟨hacquiring, hcleared⟩, hstep⟩
  have hsound := sound_of_reachable (fun s l hg => hg.1.1) hreach
  exact hfresh.step hsound hacquiring.2 hcleared hstep

/-- In a run that never empties the list while `wakeup_timer` is armed for a deadline, no
wakeup is stale; the next step that does leaves one behind. -/
theorem no_stale_wakeups (isPeriodic : AlarmPtr → Bool) (capacity : QueuePtr → UInt64)
    (home : AlarmPtr → QueuePtr) (s : System)
    (h : Reachable (Guarded (fun s l => Acquiring home s l ∧ Cleared s l) (Next System.step))
      (init isPeriodic capacity) s) :
    NoStaleWakeup s.mod ∧
      (s.mod.alarms = [] → Idle s.mod.timer ∧ Idle s.mod.wakeupTimer) ∧
      ∀ l s', Acquiring home s l → s.step l = .ok s' →
        (NoStaleWakeup s'.mod ↔ Cleared s l) := by
  have hfresh := fresh_of_reachable h
  have hsound := sound_of_reachable (fun s l hg => hg.1.1) h
  refine ⟨hfresh.noStaleWakeup, hfresh.noStaleWakeup.idle, ?_⟩
  intro l s' hacquiring hstep
  constructor
  · intro hstale hempties
    have hidle := (hstale.idle (alarms_eq_nil_of_empties hempties hstep)).2
    rwa [wakeupTimer_of_alarms_eq_nil hsound hacquiring.2 hstep hempties] at hidle
  · intro hcleared
    exact (hfresh.step hsound hacquiring.2 hcleared hstep).noStaleWakeup

/-- An alarm is set for a late deadline, then for an early one, and cancelled: the early
deadline has put off `wakeup_timer`. -/
def setLateSetEarlyCancel : List Label :=
  [.set ⟨1, 10000, 100, 0, 7⟩ (setAt 10), .set ⟨1, 100, 100, 0, 7⟩ (setAt 20),
    .cancel 1 (kernelAt 30)]

theorem no_stale_wakeups_setLateSetEarlyCancel :
    ∃ s : System, s.mod.alarms = [] ∧ NoStaleWakeup s.mod ∧ Idle s.mod.wakeupTimer := by
  have hend : ((exec (fun s l => decide (Acquiring (fun _ => 7) s l ∧ Cleared s l))
      System.step (init (fun _ => false) fun _ => 10) setLateSetEarlyCancel).any fun s =>
        decide (s.mod.alarms = [])) = true := by
    decide +kernel
  obtain ⟨s, hs, hend⟩ := (Option.any_eq_true _ _).mp hend
  have hnil := of_decide_eq_true hend
  obtain ⟨hstale, hidle, -⟩ := no_stale_wakeups _ _ _ s (Reachable.of_exec hs)
  exact ⟨s, hnil, hstale, (hidle hnil).2⟩

/-- An alarm that is far away is cancelled: `wakeup_timer` stays armed for its deadline. -/
theorem stale_wakeup_after_cancel :
    ∃ s : System, Reachable (Guarded (fun s l => Acquiring (fun _ => 7) s l ∧ NoWrap s l)
        (Next System.step)) (init (fun _ => false) fun _ => 10) s ∧
      s.mod.alarms = [] ∧ s.mod.wakeupTimer = some (Timespec.ofDeadline 10010) ∧
      ¬ Idle s.mod.wakeupTimer ∧ ¬ NoStaleWakeup s.mod := by
  have hend : ((exec (fun s l => decide (Acquiring (fun _ => 7) s l ∧ NoWrap s l))
      System.step (init (fun _ => false) fun _ => 10)
      [.set ⟨1, 10000, 100, 0, 7⟩ (setAt 10), .cancel 1 (kernelAt 30)]).any fun s =>
        decide (s.mod.alarms = [] ∧
          s.mod.wakeupTimer = some (Timespec.ofDeadline 10010))) = true := by
    decide +kernel
  obtain ⟨s, hs, hend⟩ := (Option.any_eq_true _ _).mp hend
  obtain ⟨hnil, hwakeup⟩ := of_decide_eq_true hend
  have hidle : ¬ Idle s.mod.wakeupTimer := by
    rw [hwakeup]
    decide +kernel
  exact ⟨s, Reachable.of_exec hs, hnil, hwakeup, hidle, fun hstale => hidle (hstale.idle hnil).2⟩

end System

end Alarm

end Osi
