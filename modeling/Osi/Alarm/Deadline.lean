import Osi.Alarm.Representation.Runs

/-!
# Deadlines

The arithmetic of `schedule_next_instance` on 64-bit times, and what it gives
for the deadlines of the alarms in the list: a condition that every computed
deadline meets is met by every listed deadline, because a deadline is only
assigned to an alarm that is out of the list.
-/

namespace Osi

namespace Alarm

open Transition AlarmState

theorem nextDeadline_toNat {alarm : AlarmT} {justNow : PeriodMs}
    (hfits : System.DeadlineFits alarm justNow) :
    (nextDeadline alarm justNow).toNat =
      justNow.toNat + (alarm.period - msIntoPeriod alarm justNow).toNat := by
  rw [nextDeadline, UInt64.toNat_add]
  exact Nat.mod_eq_of_lt hfits

theorem nextDeadline_ne_zero {alarm : AlarmT} {justNow : PeriodMs}
    (hfits : System.DeadlineFits alarm justNow) (hpos : 0 < justNow) :
    nextDeadline alarm justNow ≠ 0 := by
  intro hzero
  have hnat := nextDeadline_toNat hfits
  rw [hzero] at hnat
  have hpos' : 0 < justNow.toNat := UInt64.lt_iff_toNat_lt.mp hpos
  have hz : (0 : UInt64).toNat = 0 := rfl
  omega

/-- A deadline that does not wrap is not before the time it is computed at. -/
theorem le_nextDeadline {alarm : AlarmT} {justNow : PeriodMs}
    (hfits : System.DeadlineFits alarm justNow) :
    justNow ≤ nextDeadline alarm justNow := by
  rw [UInt64.le_iff_toNat_le, nextDeadline_toNat hfits]
  omega

/-- The time that has passed of the current period is less than a period and not
more than the time since the set. -/
theorem msIntoPeriod_bound {alarm : AlarmT} {justNow : PeriodMs}
    (hcreated : alarm.creationTime ≤ justNow) (hper : alarm.isPeriodic = true)
    (hperiod : alarm.period ≠ 0) :
    (msIntoPeriod alarm justNow).toNat < alarm.period.toNat ∧
      (msIntoPeriod alarm justNow).toNat ≤
        justNow.toNat - alarm.creationTime.toNat := by
  have hpos : 0 < alarm.period.toNat := by
    apply Nat.pos_of_ne_zero
    intro hzero
    exact hperiod (UInt64.toNat_inj.mp hzero)
  rw [msIntoPeriod, if_pos hper, UInt64.toNat_mod, UInt64.toNat_sub_of_le _ _ hcreated]
  exact ⟨Nat.mod_lt _ hpos, Nat.mod_le _ _⟩

theorem lt_nextDeadline {alarm : AlarmT} {justNow : PeriodMs}
    (hcreated : alarm.creationTime ≤ justNow) (hper : alarm.isPeriodic = true)
    (hperiod : alarm.period ≠ 0) (hfits : System.DeadlineFits alarm justNow) :
    justNow < nextDeadline alarm justNow := by
  have hbound := msIntoPeriod_bound hcreated hper hperiod
  have hsub := UInt64.toNat_sub_of_le alarm.period (msIntoPeriod alarm justNow)
    (UInt64.le_iff_toNat_le.mpr hbound.1.le)
  rw [UInt64.lt_iff_toNat_lt, nextDeadline_toNat hfits]
  omega

/-- No deadline is before the time of the set plus the interval. -/
theorem creationTime_add_period_le {alarm : AlarmT} {justNow : PeriodMs}
    (hcreated : alarm.creationTime ≤ justNow)
    (hperiod : alarm.isPeriodic = true → alarm.period ≠ 0)
    (hfits : System.DeadlineFits alarm justNow) :
    alarm.creationTime.toNat + alarm.period.toNat ≤
      (nextDeadline alarm justNow).toNat := by
  rw [nextDeadline_toNat hfits]
  have hle := UInt64.le_iff_toNat_le.mp hcreated
  cases hper : alarm.isPeriodic with
  | false =>
      have hzero : msIntoPeriod alarm justNow = 0 := by simp [msIntoPeriod, hper]
      rw [hzero, UInt64.sub_zero]
      omega
  | true =>
      have hbound := msIntoPeriod_bound hcreated hper (hperiod hper)
      have hsub := UInt64.toNat_sub_of_le alarm.period (msIntoPeriod alarm justNow)
        (UInt64.le_iff_toNat_le.mpr hbound.1.le)
      omega

namespace Timespec

/-- The code tests a `timespec` for zero field by field. -/
theorem ne_zero_iff {v : Timespec} : v ≠ zero ↔ v.tvSec ≠ 0 ∨ v.tvNsec ≠ 0 := by
  rw [Ne, Timespec.ext_iff, not_and_or]
  rfl

theorem ofDeadline_ne_zero {d : PeriodMs} (hd : d ≠ 0) :
    ofDeadline d ≠ zero := by
  intro hzero
  apply hd
  simp only [ofDeadline, zero, Timespec.mk.injEq] at hzero
  obtain ⟨hsec, hnsec⟩ := hzero
  rw [UInt64.toNat_div] at hsec
  have hmod : (d % 1000).toNat = d.toNat % 1000 := UInt64.toNat_mod d 1000
  have hdiv : d.toNat / 1000 = 0 := hsec
  apply UInt64.toNat_inj.mp
  change d.toNat = 0
  omega

end Timespec

def ListedDeadlines (p : PeriodMs → Prop) (m : AlarmState) : Prop :=
  ∀ a ∈ m.alarms, p (m.alarm a).deadline

/-- A condition on all computed deadlines is a condition on all listed ones. -/
theorem ListedDeadlines.effect {p : PeriodMs → Prop} {l : Label}
    {m m' : AlarmState} {x x' : Option AlarmPtr} (h : ListedDeadlines p m)
    (hw : Wellformed m x) (hr : Represents m x)
    (hl : System.Scheduling (fun al t => p (nextDeadline al t)) m l)
    (heffect : Effect l m x m' x') : ListedDeadlines p m' := by
  intro a ha
  cases heffect with
  | @set _ _ r env hm =>
      obtain ⟨⟨stats, halarm⟩, halarms, _⟩ := alarmSetInternal_ok hm
      rw [halarms, hw.mem_reinserted] at ha
      rw [halarm]
      by_cases har : a = r.alarm
      · subst har
        rw [Function.update_self]
        exact hl
      · rw [Function.update_of_ne har]
        exact h a (ha.resolve_left har)
  | @cancel _ b env =>
      obtain ⟨⟨stats, halarm⟩, halarms, _⟩ := alarmCancel_spec m b env
      rw [halarms, hw.nodup.mem_erase_iff] at ha
      rw [halarm, Function.update_of_ne ha.1]
      exact h a ha.2
  | @dispatch _ _ b env hm =>
      obtain ⟨rest, hcons, hdue, hsingle | hperiodic⟩ := callbackDispatch_some hm
      · obtain ⟨_, halarm, halarms, _⟩ := hsingle
        rw [halarm]
        exact h a (by rw [hcons]; exact List.mem_cons_of_mem b (halarms ▸ ha))
      · obtain ⟨hper, ⟨stats, halarm⟩, hcb⟩ := hperiodic
        have hlisted : b ∈ m.alarms := by simp [hcons]
        obtain ⟨halarms, _⟩ := hcb (hw.callback_of_periodic b hper hlisted)
        rw [halarms, mem_inserted] at ha
        rw [halarm]
        by_cases hab : a = b
        · subst hab
          rw [Function.update_self]
          simp only [System.Scheduling, hcons] at hl
          exact hl hper hdue
        · rw [Function.update_of_ne hab]
          apply h a
          rw [hcons]
          exact List.mem_cons_of_mem b (List.mem_of_mem_erase (ha.resolve_left hab))
  | enqueue hm =>
      obtain ⟨halarm, halarms, _⟩ := callbackDispatchEnqueue_ok hm
      rw [halarm]
      exact h a (halarms ▸ ha)
  | dequeue hm =>
      have halarms := (alarmQueueReady_some hm).2.2.2.1
      rw [halarms] at ha
      rw [hr.dequeue_deadline hw hm ha]
      exact h a ha
  | same hm =>
      rw [hm.deadline]
      exact h a (hm.alarms ▸ ha)

theorem listedDeadlines_of_reachable {guard : System → Label → Prop}
    {home : AlarmPtr → QueuePtr} {p : PeriodMs → Prop}
    (hguard : ∀ s l, guard s l → System.OneQueue home s l ∧
      System.Scheduling (fun al t => p (nextDeadline al t)) s.mod l)
    {isPeriodic : AlarmPtr → Bool} {capacity : QueuePtr → UInt64} {s : System}
    (h : Reachable (Guarded guard (Next System.step))
      (System.init isPeriodic capacity) s) : ListedDeadlines p s.mod := by
  refine h.induct (I := fun s => ListedDeadlines p s.mod) ?_ ?_
  · intro a ha
    exact absurd ha (by simp [System.init, AlarmState.init])
  · rintro s l s' hreach hs ⟨hg, hstep⟩
    have hsound := sound_of_reachable (fun s l hg => (hguard s l hg).1) hreach
    exact hs.effect hsound.wellformed hsound.represents (hguard s l hg).2
      (System.step_effect hstep)

end Alarm

end Osi
