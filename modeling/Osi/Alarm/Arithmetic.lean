import Osi.Alarm.KernelCalls
import Mathlib.Algebra.Ring.Int.Defs
import Mathlib.Data.UInt

/-!
# The arithmetic on intervals

`interval_ms` is not checked. It becomes a divisor in `schedule_next_instance` if the alarm
is periodic, a summand of the deadline, and `reschedule_root_alarm` subtracts the time from
that deadline and reads the difference as an `int64_t`. `Operation.Safe` says that the three
computations give what they would give on the integers, and `safe_iff_inRange` for which
intervals and times they do.
-/

namespace Osi

namespace Alarm

open Transition AlarmState

/-! ## Sums and differences of times -/

/-- A sum of times has not wrapped exactly if it is not before its first summand. -/
theorem le_add_iff (t u : PeriodMs) : t ≤ t + u ↔ t.toNat + u.toNat < 2 ^ 64 := by
  have ht : t.toNat < 2 ^ 64 := t.toNat_lt
  have hu : u.toNat < 2 ^ 64 := u.toNat_lt
  rw [UInt64.le_iff_toNat_le, UInt64.toNat_add]
  omega

theorem toInt_toInt64_sub (d t : PeriodMs) : (d - t).toInt64.toInt =
    if (d.toNat : ℤ) - t.toNat < -2 ^ 63 then (d.toNat : ℤ) - t.toNat + 2 ^ 64
    else if (d.toNat : ℤ) - t.toNat < 2 ^ 63 then (d.toNat : ℤ) - t.toNat
    else (d.toNat : ℤ) - t.toNat - 2 ^ 64 := by
  have hd : d.toNat < 2 ^ 64 := d.toNat_lt
  have ht : t.toNat < 2 ^ 64 := t.toNat_lt
  have hint : (d - t).toInt64.toInt = (d - t).toBitVec.toInt := rfl
  have hnat : (d - t).toBitVec.toNat = (2 ^ 64 - t.toNat + d.toNat) % 2 ^ 64 :=
    UInt64.toNat_sub d t
  rw [hint, BitVec.toInt_eq_toNat_cond, hnat]
  split_ifs <;> omega

/-- The test of `reschedule_root_alarm` for the wakelock. -/
theorem toInt64_sub_lt_iff (d t : PeriodMs) :
    (d - t).toInt64 < timerIntervalForWakelockInMs ↔
      (d.toNat : ℤ) - t.toNat < 3000 - 2 ^ 64 ∨
        (-2 ^ 63 ≤ (d.toNat : ℤ) - t.toNat ∧ (d.toNat : ℤ) - t.toNat < 3000) ∨
        2 ^ 63 ≤ (d.toNat : ℤ) - t.toNat := by
  have hd : d.toNat < 2 ^ 64 := d.toNat_lt
  have ht : t.toNat < 2 ^ 64 := t.toNat_lt
  have hinterval : timerIntervalForWakelockInMs.toInt = 3000 := by decide
  rw [Int64.lt_iff_toInt_lt, hinterval, toInt_toInt64_sub]
  split_ifs <;> omega

/-! ## The next deadline -/

/-- The time from `t` to the next deadline of an alarm that was set at the time `c`, on the
integers. A clock that has gone back counts as one that has gone around. -/
def untilDeadline (isPeriodic : Bool) (c P t : ℕ) : ℕ :=
  if isPeriodic then P - (t + 2 ^ 64 - c) % 2 ^ 64 % P else P

/-- `schedule_next_instance` on an alarm of this kind, set at the time `c` with the period
`P`, divides by a non-zero number at the time `t`, and its sum does not wrap. -/
def Fits (isPeriodic : Bool) (c P t : PeriodMs) : Prop :=
  ¬ (isPeriodic = true ∧ P = 0) ∧
    t.toNat + untilDeadline isPeriodic c.toNat P.toNat t.toNat < 2 ^ 64

instance (isPeriodic : Bool) (c P t : PeriodMs) : Decidable (Fits isPeriodic c P t) :=
  inferInstanceAs (Decidable (_ ∧ _))

theorem sub_msIntoPeriod_toNat {al : AlarmT} (t : PeriodMs)
    (hperiod : ¬ (al.isPeriodic = true ∧ al.period = 0)) :
    (al.period - msIntoPeriod al t).toNat =
      untilDeadline al.isPeriodic al.creationTime.toNat al.period.toNat t.toNat := by
  unfold msIntoPeriod untilDeadline
  cases hper : al.isPeriodic with
  | false => simp
  | true =>
      have hne : al.period ≠ 0 := fun hzero => hperiod ⟨hper, hzero⟩
      have hpos : 0 < al.period.toNat :=
        Nat.pos_of_ne_zero fun hzero => hne (UInt64.toNat_inj.mp hzero)
      have hc : al.creationTime.toNat < 2 ^ 64 := al.creationTime.toNat_lt
      have hsub : 2 ^ 64 - al.creationTime.toNat + t.toNat =
          t.toNat + 2 ^ 64 - al.creationTime.toNat := by omega
      have hmod : ((t - al.creationTime) % al.period).toNat =
          (t.toNat + 2 ^ 64 - al.creationTime.toNat) % 2 ^ 64 % al.period.toNat := by
        rw [UInt64.toNat_mod, UInt64.toNat_sub, hsub]
      have hlt : ((t - al.creationTime) % al.period).toNat < al.period.toNat := by
        rw [UInt64.toNat_mod]
        exact Nat.mod_lt _ hpos
      rw [if_pos rfl, if_pos rfl, ← hmod]
      exact UInt64.toNat_sub_of_le _ _ (UInt64.le_iff_toNat_le.mpr hlt.le)

/-- The deadline is not before the time it is computed at exactly if the sum does not
wrap. -/
theorem le_nextDeadline_iff (al : AlarmT) (t : PeriodMs)
    (hperiod : ¬ (al.isPeriodic = true ∧ al.period = 0)) :
    t ≤ nextDeadline al t ↔ Fits al.isPeriodic al.creationTime al.period t := by
  rw [nextDeadline, le_add_iff, sub_msIntoPeriod_toNat t hperiod, Fits]
  exact ⟨fun hlt => ⟨hperiod, hlt⟩, fun hfits => hfits.2⟩

/-! ## The functions -/

/-- Nothing but a zero period stops `schedule_next_instance`. -/
theorem scheduleNextInstance_of_period {m : AlarmState} {a : AlarmPtr} (env : ScheduleEnv)
    (hperiod : ¬ ((m.alarm a).isPeriodic = true ∧ (m.alarm a).period = 0)) :
    ∃ m', m.scheduleNextInstance a env = .ok m' := by
  have hsame : (if (m.alarm a).callback.isSome then m.removePendingAlarm a
      else m).alarm a = m.alarm a := by
    split <;> rfl
  unfold scheduleNextInstance
  dsimp only
  rw [hsame, if_neg hperiod]
  generalize (if (m.alarm a).callback.isSome then m.removePendingAlarm a else m) = m₁
  split
  · exact ⟨_, rfl⟩
  · exact ⟨_, rfl⟩

/-- `alarm_set_internal` returns, with a deadline that is not before the time it was
computed at. -/
def SetSafe (m : AlarmState) (r : SetArgs) (env : SetEnv) : Prop :=
  ∃ m', m.alarmSetInternal r env = .ok m' ∧
    env.schedule.now ≤ (m'.alarm r.alarm).deadline

theorem setSafe_iff {m : AlarmState} {r : SetArgs} {env : SetEnv} :
    SetSafe m r env ↔
      Fits (m.alarm r.alarm).isPeriodic env.creationTime r.intervalMs env.schedule.now := by
  have hdeadline : ∀ m', m.alarmSetInternal r env = .ok m' →
      (m'.alarm r.alarm).deadline =
        nextDeadline (assigned (m.alarm r.alarm) r env) env.schedule.now := by
    intro m' hm
    obtain ⟨⟨stats, halarm⟩, -⟩ := alarmSetInternal_ok hm
    rw [halarm, Function.update_self]
    rfl
  constructor
  · rintro ⟨m', hm, hle⟩
    have hperiod : ¬ ((m.alarm r.alarm).isPeriodic = true ∧ r.intervalMs = 0) := by
      rintro ⟨hper, hzero⟩
      exact alarmSetInternal_period hm hper hzero
    rw [hdeadline m' hm] at hle
    exact (le_nextDeadline_iff (assigned (m.alarm r.alarm) r env) _ hperiod).mp hle
  · intro hfits
    have hbase : (m.modify r.alarm fun al => assigned al r env).alarm r.alarm =
        assigned (m.alarm r.alarm) r env :=
      Function.update_self r.alarm _ m.alarm
    obtain ⟨m₁, hm₁⟩ := scheduleNextInstance_of_period env.schedule
      (m := m.modify r.alarm fun al => assigned al r env) (a := r.alarm)
      (by rw [hbase]; exact hfits.1)
    have hm : ∃ m', m.alarmSetInternal r env = .ok m' := by
      unfold alarmSetInternal
      dsimp only
      rw [hm₁]
      exact ⟨_, rfl⟩
    obtain ⟨m', hm⟩ := hm
    refine ⟨m', hm, ?_⟩
    rw [hdeadline m' hm]
    exact (le_nextDeadline_iff (assigned (m.alarm r.alarm) r env) _ hfits.1).mpr hfits

/-- An iteration of `callback_dispatch` returns, and if it re-arms a periodic alarm, then
with a deadline that is not before the time it was computed at. -/
def DispatchSafe (m : AlarmState) (env : DispatchEnv) : Prop :=
  ∃ m' x, m.callbackDispatch env = .ok (m', x) ∧
    ∀ a, x = some a → (m.alarm a).isPeriodic = true →
      env.schedule.now ≤ (m'.alarm a).deadline

def DispatchInRange (m : AlarmState) (env : DispatchEnv) : Prop :=
  match m.alarms with
  | [] => True
  | a :: _ =>
      (m.alarm a).isPeriodic = true → (m.alarm a).deadline ≤ env.now →
        Fits true (m.alarm a).creationTime (m.alarm a).period env.schedule.now

theorem callbackDispatch_of_period {m : AlarmState} (env : DispatchEnv)
    (hperiod : ∀ a rest, m.alarms = a :: rest → (m.alarm a).isPeriodic = true →
      (m.alarm a).deadline ≤ env.now → (m.alarm a).period ≠ 0) :
    ∃ m' x, m.callbackDispatch env = .ok (m', x) := by
  cases halarms : m.alarms with
  | nil =>
      simp only [callbackDispatch, halarms]
      exact ⟨_, _, rfl⟩
  | cons a rest =>
      simp only [callbackDispatch, halarms]
      split_ifs with hlater hper
      · exact ⟨_, _, rfl⟩
      · have hne := hperiod a rest halarms hper (UInt64.not_lt.mp hlater)
        generalize hbase : ({ m with alarms := (a :: rest).erase a }.modify a fun al =>
          { al with prevDeadline := al.deadline }) = base
        have halarm : base.alarm a =
            { m.alarm a with prevDeadline := (m.alarm a).deadline } := by
          rw [← hbase]
          exact Function.update_self a _ m.alarm
        obtain ⟨m₁, hm₁⟩ := scheduleNextInstance_of_period env.schedule (m := base) (a := a)
          (by rw [halarm]; exact fun hzero => hne hzero.2)
        rw [hm₁]
        exact ⟨_, _, rfl⟩
      · exact ⟨_, _, rfl⟩

theorem dispatchSafe_iff {m : AlarmState} {env : DispatchEnv} :
    DispatchSafe m env ↔ DispatchInRange m env := by
  have hdeadline : ∀ m' a, m.callbackDispatch env = .ok (m', some a) →
      (m.alarm a).isPeriodic = true → (env.schedule.now ≤ (m'.alarm a).deadline ↔
        Fits true (m.alarm a).creationTime (m.alarm a).period env.schedule.now) := by
    intro m' a hm hper
    have hperiod := callbackDispatch_period hm hper
    obtain ⟨rest, -, -, ⟨hsingle, -⟩ | ⟨-, ⟨stats, halarm⟩, -⟩⟩ := callbackDispatch_some hm
    · exact absurd (hper.symm.trans hsingle) (by simp)
    · have hself : (m'.alarm a).deadline = nextDeadline (m.alarm a) env.schedule.now := by
        rw [halarm, Function.update_self]
        rfl
      rw [hself, le_nextDeadline_iff _ _ fun hzero => hperiod hzero.2, hper]
  constructor
  · rintro ⟨m', x, hm, hsafe⟩
    unfold DispatchInRange
    split
    · trivial
    · rename_i a rest halarms
      intro hper hdue
      cases x with
      | none =>
          have hlater := (callbackDispatch_none hm).2 a (by simp [halarms])
          exact absurd hlater (UInt64.not_lt.mpr hdue)
      | some b =>
          obtain ⟨rest', hcons, -⟩ := callbackDispatch_some hm
          rw [halarms] at hcons
          obtain ⟨rfl, -⟩ := List.cons.inj hcons
          exact (hdeadline m' a hm hper).mp (hsafe a rfl hper)
  · intro hrange
    obtain ⟨m', x, hm⟩ := callbackDispatch_of_period env (m := m) (by
      intro a rest halarms hper hdue hzero
      unfold DispatchInRange at hrange
      rw [halarms] at hrange
      exact (hrange hper hdue).1 ⟨rfl, hzero⟩)
    refine ⟨m', x, hm, ?_⟩
    rintro a rfl hper
    obtain ⟨rest, hcons, hdue, -⟩ := callbackDispatch_some hm
    unfold DispatchInRange at hrange
    rw [hcons] at hrange
    exact (hdeadline m' a hm hper).mpr (hrange hper hdue)

/-- `reschedule_root_alarm` goes into the branch of the wakelock: it acquires the wakelock
or, which it does only there, puts off the wakeup timer to the end of time. -/
def TakesWakelockBranch (m : AlarmState) (env : RescheduleEnv) : Prop :=
  .wakelockAcquire ∈ m.rescheduleRootAlarmCalls env ∨
    .timerSettime .wakeupTimer Timespec.endOfTime ∈ m.rescheduleRootAlarmCalls env

theorem Timespec.ofDeadline_ne_endOfTime (d : PeriodMs) : ofDeadline d ≠ endOfTime := by
  intro heq
  have hsec : (d / 1000).toNat = 2 ^ 62 := congrArg Timespec.tvSec heq
  have hd : d.toNat < 2 ^ 64 := d.toNat_lt
  have hdiv : (d / 1000).toNat = d.toNat / 1000 := UInt64.toNat_div d 1000
  omega

theorem not_mem_rescheduleDoneCalls (m : AlarmState) (v : Timespec) :
    KernelCall.wakelockAcquire ∉ m.rescheduleDoneCalls v ∧
      KernelCall.timerSettime .wakeupTimer Timespec.endOfTime ∉ m.rescheduleDoneCalls v := by
  simp only [rescheduleDoneCalls]
  split_ifs <;> simp

theorem takesWakelockBranch_iff {m : AlarmState} {env : RescheduleEnv} {a : AlarmPtr}
    {rest : List AlarmPtr} (halarms : m.alarms = a :: rest) :
    TakesWakelockBranch m env ↔
      ((m.alarm a).deadline - env.now).toInt64 < timerIntervalForWakelockInMs := by
  obtain ⟨hacquire, hsettime⟩ := not_mem_rescheduleDoneCalls m Timespec.zero
  unfold TakesWakelockBranch
  simp only [rescheduleRootAlarmCalls, halarms]
  split_ifs with hshort hset hacquired
  · exact iff_of_true (by simp) hshort
  · exact iff_of_true (by simp) hshort
  · exact iff_of_true (by simp) hshort
  · refine iff_of_false ?_ hshort
    simp [hacquire, hsettime, (Timespec.ofDeadline_ne_endOfTime _).symm]

def remaining (m : AlarmState) (env : RescheduleEnv) (a : AlarmPtr) : ℤ :=
  (m.alarm a).deadline.toNat - env.now.toNat

/-- `reschedule_root_alarm` goes into the branch of the wakelock exactly if less than
`TIMER_INTERVAL_FOR_WAKELOCK_IN_MS` is left to the root alarm. -/
def RescheduleSafe (m : AlarmState) (env : RescheduleEnv) : Prop :=
  match m.alarms with
  | [] => True
  | a :: _ => TakesWakelockBranch m env ↔ remaining m env a < 3000

/-- What is left to the root alarm is an `int64_t`, or it is overdue by so much that it
comes out as a short time again. -/
def RescheduleInRange (m : AlarmState) (env : RescheduleEnv) : Prop :=
  match m.alarms with
  | [] => True
  | a :: _ =>
      (-2 ^ 63 ≤ remaining m env a ∧ remaining m env a < 2 ^ 63) ∨
        remaining m env a < 3000 - 2 ^ 64

theorem rescheduleSafe_iff {m : AlarmState} {env : RescheduleEnv} :
    RescheduleSafe m env ↔ RescheduleInRange m env := by
  unfold RescheduleSafe RescheduleInRange
  split
  · rfl
  · rename_i a rest halarms
    rw [takesWakelockBranch_iff halarms, toInt64_sub_lt_iff]
    unfold remaining
    omega

/-! ## For every interval -/

inductive Operation
  | alarmSet (r : SetArgs) (env : SetEnv)
  | callbackDispatch (env : DispatchEnv)
  | rescheduleRootAlarm (env : RescheduleEnv)

namespace Operation

def Safe (m : AlarmState) : Operation → Prop
  | alarmSet r env => SetSafe m r env
  | callbackDispatch env => DispatchSafe m env
  | rescheduleRootAlarm env => RescheduleSafe m env

def InRange (m : AlarmState) : Operation → Prop
  | alarmSet r env =>
      Fits (m.alarm r.alarm).isPeriodic env.creationTime r.intervalMs env.schedule.now
  | callbackDispatch env => DispatchInRange m env
  | rescheduleRootAlarm env => RescheduleInRange m env

/-- When the arithmetic of the module is safe. -/
theorem safe_iff_inRange (m : AlarmState) (op : Operation) : op.Safe m ↔ op.InRange m := by
  cases op with
  | alarmSet r env => exact setSafe_iff
  | callbackDispatch env => exact dispatchSafe_iff
  | rescheduleRootAlarm env => exact rescheduleSafe_iff

/-- A periodic alarm with the interval zero, a single-shot one whose deadline wraps, and one
that is set for so late that it counts as overdue. -/
theorem not_safe_intervals :
    (∃ m : AlarmState, m = AlarmState.init (fun _ => true) (fun _ => 10) ∧
      m.alarmSetInternal ⟨1, 0, 100, 0, 7⟩ (setAt 10) = .error .divisionByZero ∧
      ¬ (alarmSet ⟨1, 0, 100, 0, 7⟩ (setAt 10)).Safe m) ∧
    (∃ m : AlarmState, m = AlarmState.init (fun _ => false) (fun _ => 10) ∧
      ¬ (alarmSet ⟨1, 0xFFFFFFFFFFFFFFFF, 100, 0, 7⟩ (setAt 10)).Safe m) ∧
    ∃ m : AlarmState, (AlarmState.init (fun _ => false) (fun _ => 10)).alarmSetInternal
        ⟨1, 2 ^ 63, 100, 0, 7⟩ (setAt 10) = .ok m ∧
      ¬ (rescheduleRootAlarm (kernelAt 10)).Safe m := by
  refine ⟨⟨_, rfl, rfl, setSafe_iff.not.mpr (by decide +kernel)⟩,
    ⟨_, rfl, setSafe_iff.not.mpr (by decide +kernel)⟩, ?_⟩
  have hset : ∃ m : AlarmState, (AlarmState.init (fun _ => false) (fun _ => 10)).alarmSetInternal
      ⟨1, 2 ^ 63, 100, 0, 7⟩ (setAt 10) = .ok m ∧ m.alarms = [1] ∧
      (m.alarm 1).deadline = 2 ^ 63 + 10 :=
    ⟨_, rfl, by decide +kernel, by decide +kernel⟩
  obtain ⟨m, hm, halarms, hdeadline⟩ := hset
  refine ⟨m, hm, rescheduleSafe_iff.not.mpr ?_⟩
  simp only [RescheduleInRange, remaining, halarms, hdeadline]
  decide +kernel

end Operation

end Alarm

end Osi
