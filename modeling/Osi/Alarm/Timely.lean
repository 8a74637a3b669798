import Osi.Alarm.Deadline

/-!
# Alarms are not early

With a clock that does not go back and deadlines that do not wrap, the deadline
of an alarm in the list is at least an interval after the set, and an alarm that
has left the list for its queue is due. For a periodic alarm the deadline that
counts is the one of the dispatched instance, which the dispatcher has saved
before it computed the next.
-/

namespace Osi

namespace Alarm

open Transition AlarmState

namespace System

def tick (clock : PeriodMs) (l : Label) : PeriodMs := l.readings.getLast?.getD clock

theorem step_clock {s s' : System} {l : Label} (h : s.step l = .ok s') :
    s'.clock = tick s.clock l := by
  cases step_cases h <;> rfl

theorem le_tick {clock : PeriodMs} {l : Label}
    (h : (clock :: l.readings).Pairwise (· ≤ ·)) {t : PeriodMs}
    (ht : t = clock ∨ t ∈ l.readings) : t ≤ tick clock l := by
  rw [List.pairwise_cons] at h
  unfold tick
  rcases List.eq_nil_or_concat l.readings with hnil | ⟨ts, u, hu⟩
  · rw [hnil] at ht ⊢
    obtain rfl | hfalse := ht
    · exact UInt64.le_refl _
    · exact absurd hfalse (by simp)
  · rw [hu] at ht h ⊢
    rw [List.concat_eq_append, List.getLast?_concat, Option.getD_some]
    rw [List.concat_eq_append] at ht h
    obtain rfl | ht := ht
    · exact h.1 u (by simp)
    · rcases List.mem_append.mp ht with ht | ht
      · exact (List.pairwise_append.mp h.2).2.2 t ht u (by simp)
      · obtain rfl : t = u := by simpa using ht
        exact UInt64.le_refl _

/-- A run with one queue for each alarm, a clock that does not go back and
deadlines that do not wrap. -/
def Regular (home : AlarmPtr → QueuePtr) (s : System) (l : Label) : Prop :=
  OneQueue home s l ∧ ClockMonotone s l ∧ NoWrap s l

instance (home : AlarmPtr → QueuePtr) (s : System) (l : Label) :
    Decidable (Regular home s l) :=
  inferInstanceAs (Decidable (_ ∧ _))

end System

open Osi.Alarm.System

def Pending (m : AlarmState) (x : Option AlarmPtr) (a : AlarmPtr) : Prop :=
  x = some a ∨ ∃ q, a ∈ (m.queues q).list

/-- The deadline `d` is not before the set of the alarm plus its interval. -/
def NotEarly (al : AlarmT) (d : PeriodMs) : Prop :=
  al.creationTime.toNat + al.period.toNat ≤ d.toNat

structure Timely (m : AlarmState) (x : Option AlarmPtr) (clock : PeriodMs) : Prop where
  created : ∀ a, (m.alarm a).creationTime ≤ clock
  listed : ∀ a ∈ m.alarms, NotEarly (m.alarm a) (m.alarm a).deadline
  due : ∀ a, Pending m x a →
    NotEarly (m.alarm a) (dispatchedDeadline (m.alarm a)) ∧
      dispatchedDeadline (m.alarm a) ≤ clock
  next : ∀ a, (m.alarm a).isPeriodic = true → x = some a →
    (m.alarm a).prevDeadline < (m.alarm a).deadline

namespace Timely

variable {m m' : AlarmState} {x : Option AlarmPtr} {clock clock' : PeriodMs}

theorem init (isPeriodic : AlarmPtr → Bool) (capacity : QueuePtr → UInt64) :
    Timely (AlarmState.init isPeriodic capacity) none 0 where
  created _ := UInt64.le_refl _
  listed a ha := absurd ha (by simp [AlarmState.init])
  due a ha := absurd ha (by simp [Pending, AlarmState.init])
  next a _ hx := absurd hx (by simp)

theorem congr (h : Timely m x clock) (hsame : SameAlarms m m')
    (hclock : clock ≤ clock') : Timely m' x clock' := by
  refine ⟨?_, ?_, ?_, ?_⟩
  · intro a
    obtain ⟨stats, ha⟩ := hsame.alarm a
    rw [ha]
    exact UInt64.le_trans (h.created a) hclock
  · intro a hlisted
    obtain ⟨stats, ha⟩ := hsame.alarm a
    rw [ha]
    exact h.listed a (hsame.alarms ▸ hlisted)
  · intro a hpending
    obtain ⟨stats, ha⟩ := hsame.alarm a
    rw [Pending, hsame.queues] at hpending
    obtain ⟨hearly, hdue⟩ := h.due a hpending
    rw [ha]
    exact ⟨hearly, UInt64.le_trans hdue hclock⟩
  · intro a
    obtain ⟨stats, ha⟩ := hsame.alarm a
    rw [ha]
    exact h.next a

theorem set (h : Timely m none clock) (hw : Wellformed m none)
    (hr : Represents m none) {r : SetArgs} {env : SetEnv}
    (hok : NoStaleInstance m (.set r env))
    (hmono : (clock :: (Label.set r env).readings).Pairwise (· ≤ ·))
    (hfits : Scheduling DeadlineFits m (.set r env))
    (hm : m.alarmSetInternal r env = .ok m') :
    Timely m' none (tick clock (.set r env)) := by
  have hgone := (hr.not_mem_queues_iff hm).mpr hok
  have hperiod := alarmSetInternal_period hm
  obtain ⟨⟨stats, halarm⟩, halarms, hpurge⟩ := alarmSetInternal_ok hm
  have hclock : clock ≤ tick clock (.set r env) := le_tick hmono (Or.inl rfl)
  have hcreated : env.creationTime ≤ env.schedule.now := by
    simp only [Label.readings, List.pairwise_cons] at hmono
    exact hmono.2.1 _ (by simp)
  refine ⟨?_, ?_, ?_, by simp⟩
  · intro a
    rw [halarm]
    by_cases har : a = r.alarm
    · subst har
      rw [Function.update_self]
      exact le_tick hmono (Or.inr (by simp [Label.readings, scheduled, assigned]))
    · rw [Function.update_of_ne har]
      exact UInt64.le_trans (h.created a) hclock
  · intro a ha
    rw [halarms, hw.mem_reinserted] at ha
    rw [halarm]
    by_cases har : a = r.alarm
    · subst har
      rw [Function.update_self]
      exact creationTime_add_period_le hcreated hperiod hfits
    · rw [Function.update_of_ne har]
      exact h.listed a (ha.resolve_left har)
  · rintro a (hx | ⟨q, hq⟩)
    · exact absurd hx (by simp)
    · have har : a ≠ r.alarm := by
        rintro rfl
        exact hgone q hq
      obtain ⟨hearly, hdue⟩ := h.due a (Or.inr ⟨q, (hpurge.list_sublist q).mem hq⟩)
      rw [halarm, Function.update_of_ne har]
      exact ⟨hearly, UInt64.le_trans hdue hclock⟩

theorem cancel (h : Timely m none clock) {a : AlarmPtr} {env : RescheduleEnv}
    (hr' : Represents (m.alarmCancel a env) none)
    (hmono : (clock :: (Label.cancel a env).readings).Pairwise (· ≤ ·)) :
    Timely (m.alarmCancel a env) none (tick clock (.cancel a env)) := by
  obtain ⟨⟨stats, halarm⟩, halarms, hpurge⟩ := alarmCancel_spec m a env
  have hclock : clock ≤ tick clock (.cancel a env) := le_tick hmono (Or.inl rfl)
  -- the cancelled alarm is nowhere any more
  have hgone : ¬ ((m.alarmCancel a env).alarm a).callback.isSome := by
    simp [halarm]
  rw [hr'.scheduled_iff a, not_or, not_or] at hgone
  refine ⟨?_, ?_, ?_, by simp⟩
  · intro b
    rw [halarm]
    by_cases hb : b = a
    · subst hb
      rw [Function.update_self]
      exact UInt64.le_trans (h.created b) hclock
    · rw [Function.update_of_ne hb]
      exact UInt64.le_trans (h.created b) hclock
  · intro b hb
    have hba : b ≠ a := by
      rintro rfl
      exact hgone.1 hb
    rw [halarm, Function.update_of_ne hba]
    exact h.listed b (List.mem_of_mem_erase (halarms ▸ hb))
  · rintro b (hx | ⟨q, hq⟩)
    · exact absurd hx (by simp)
    · have hba : b ≠ a := by
        rintro rfl
        exact hgone.2.1 ⟨q, hq⟩
      obtain ⟨hearly, hdue⟩ := h.due b (Or.inr ⟨q, (hpurge.list_sublist q).mem hq⟩)
      rw [halarm, Function.update_of_ne hba]
      exact ⟨hearly, UInt64.le_trans hdue hclock⟩

theorem dispatch (h : Timely m none clock) (hw : Wellformed m none) {a : AlarmPtr}
    {env : DispatchEnv}
    (hmono : (clock :: (Label.dispatch env).readings).Pairwise (· ≤ ·))
    (hfits : Scheduling DeadlineFits m (.dispatch env))
    (hm : m.callbackDispatch env = .ok (m', some a)) :
    Timely m' (some a) (tick clock (.dispatch env)) := by
  have hperiod := callbackDispatch_period hm
  have hclock : clock ≤ tick clock (.dispatch env) := le_tick hmono (Or.inl rfl)
  have hnow : env.now ≤ tick clock (.dispatch env) :=
    le_tick hmono (Or.inr (by simp [Label.readings]))
  simp only [Label.readings, List.pairwise_cons] at hmono
  have hthen : clock ≤ env.schedule.now := hmono.1 _ (by simp)
  have hlater : env.now ≤ env.schedule.now := hmono.2.1 _ (by simp)
  obtain ⟨rest, hcons, hle, hsingle | hperiodic⟩ := callbackDispatch_some hm
  · obtain ⟨hper, halarm, halarms, hqueues⟩ := hsingle
    have hlisted : a ∈ m.alarms := by simp [hcons]
    refine ⟨?_, ?_, ?_, ?_⟩
    · intro b
      rw [halarm]
      exact UInt64.le_trans (h.created b) hclock
    · intro b hb
      rw [halarm]
      exact h.listed b (by rw [hcons]; exact List.mem_cons_of_mem a (halarms ▸ hb))
    · rintro b (hx | ⟨q, hq⟩)
      · obtain rfl : a = b := Option.some.inj hx
        have hd : dispatchedDeadline (m.alarm a) = (m.alarm a).deadline := by
          simp [dispatchedDeadline, hper]
        rw [halarm, hd]
        exact ⟨h.listed a hlisted, UInt64.le_trans hle hnow⟩
      · obtain ⟨hearly, hdue⟩ := h.due b (Or.inr ⟨q, hqueues ▸ hq⟩)
        rw [halarm]
        exact ⟨hearly, UInt64.le_trans hdue hclock⟩
    · rintro b hb hx
      obtain rfl : a = b := Option.some.inj hx
      rw [halarm] at hb
      exact absurd (hper.symm.trans hb) (by simp)
  · obtain ⟨hper, ⟨stats, halarm⟩, hcb⟩ := hperiodic
    have hlisted : a ∈ m.alarms := by simp [hcons]
    obtain ⟨halarms, hpurge⟩ := hcb (hw.callback_of_periodic a hper hlisted)
    have hself : m'.alarm a =
        { rearmed (m.alarm a) env.schedule.now with stats := stats } := by
      rw [halarm, Function.update_self]
    have hothers : ∀ b, b ≠ a → m'.alarm b = m.alarm b := by
      intro b hb
      rw [halarm, Function.update_of_ne hb]
    have hcreated := UInt64.le_trans (h.created a) hthen
    have hfits' : DeadlineFits (m.alarm a) env.schedule.now := by
      simp only [Scheduling, hcons] at hfits
      exact hfits hper hle
    have hd : dispatchedDeadline (m'.alarm a) = (m.alarm a).deadline := by
      rw [hself]
      simp [dispatchedDeadline, rearmed, scheduled, hper]
    refine ⟨?_, ?_, ?_, ?_⟩
    · intro b
      by_cases hb : b = a
      · subst hb
        rw [hself]
        exact UInt64.le_trans (h.created b) hclock
      · rw [hothers b hb]
        exact UInt64.le_trans (h.created b) hclock
    · intro b hb
      by_cases hba : b = a
      · subst hba
        rw [hself]
        exact creationTime_add_period_le hcreated hperiod hfits'
      · rw [hothers b hba]
        rw [halarms, mem_inserted] at hb
        apply h.listed b
        rw [hcons]
        exact List.mem_cons_of_mem a (List.mem_of_mem_erase (hb.resolve_left hba))
    · intro b hpending
      by_cases hba : b = a
      · subst hba
        rw [hd]
        refine ⟨?_, UInt64.le_trans hle hnow⟩
        rw [hself]
        exact h.listed b hlisted
      · rcases hpending with hx | ⟨q, hq⟩
        · exact absurd (Option.some.inj hx).symm hba
        · obtain ⟨hearly, hdue⟩ := h.due b (Or.inr ⟨q, (hpurge.list_sublist q).mem hq⟩)
          rw [hothers b hba]
          exact ⟨hearly, UInt64.le_trans hdue hclock⟩
    · rintro b _ hx
      obtain rfl : a = b := Option.some.inj hx
      rw [hself]
      have hlt := lt_nextDeadline hcreated hper (hperiod hper) hfits'
      exact UInt64.lt_of_le_of_lt (UInt64.le_trans hle hlater) hlt

theorem enqueue {a : AlarmPtr} (h : Timely m (some a) clock)
    (hclock : clock ≤ clock') (hm : m.callbackDispatchEnqueue a = .ok m') :
    Timely m' none clock' := by
  obtain ⟨halarm, halarms, q₀, _, _, hlist, _, hothers⟩ := callbackDispatchEnqueue_ok hm
  refine ⟨?_, ?_, ?_, by simp⟩
  · intro b
    rw [halarm]
    exact UInt64.le_trans (h.created b) hclock
  · intro b hb
    rw [halarm]
    exact h.listed b (halarms ▸ hb)
  · rintro b (hx | ⟨q, hq⟩)
    · exact absurd hx (by simp)
    · have hpending : Pending m (some a) b := by
        by_cases hqq : q = q₀
        · subst hqq
          rw [hlist, List.mem_append, List.mem_singleton] at hq
          rcases hq with hq | rfl
          · exact Or.inr ⟨q, hq⟩
          · exact Or.inl rfl
        · exact Or.inr ⟨q, hothers q hqq ▸ hq⟩
      obtain ⟨hearly, hdue⟩ := h.due b hpending
      rw [halarm]
      exact ⟨hearly, UInt64.le_trans hdue hclock⟩

theorem dequeue (h : Timely m none clock) {q : QueuePtr} {i : Instance}
    (hr' : Represents m' none) (hclock : clock ≤ clock')
    (hm : m.alarmQueueReady q = (m', some i)) : Timely m' none clock' := by
  obtain ⟨⟨rest, hlist, hlist'⟩, _, halarm, halarms, _, hothers⟩ :=
    alarmQueueReady_some hm
  -- an alarm that is still somewhere has kept its fields
  have hkept : ∀ b, b ∈ m'.alarms ∨ Pending m' none b → m'.alarm b = m.alarm b := by
    intro b hb
    rw [halarm]
    by_cases hbi : b = i.alarm
    · subst hbi
      cases hper : (m.alarm i.alarm).isPeriodic with
      | true => rw [Function.update_self, serviced, if_pos hper]
      | false =>
          have hgone : ¬ (m'.alarm i.alarm).callback.isSome := by
            simp [halarm, serviced, hper]
          rw [hr'.scheduled_iff, not_or, not_or] at hgone
          rcases hb with hb | hx | hq
          · exact absurd hb hgone.1
          · exact absurd hx (by simp)
          · exact absurd hq hgone.2.1
    · rw [Function.update_of_ne hbi]
  refine ⟨?_, ?_, ?_, by simp⟩
  · intro b
    have hsame : (m'.alarm b).creationTime = (m.alarm b).creationTime := by
      exact field_eq_of_update AlarmT.creationTime halarm (serviced_fields _).2.2 b
    rw [hsame]
    exact UInt64.le_trans (h.created b) hclock
  · intro b hb
    rw [hkept b (Or.inl hb)]
    exact h.listed b (halarms ▸ hb)
  · intro b hb
    rw [hkept b (Or.inr hb)]
    rcases hb with hx | ⟨q', hq'⟩
    · exact absurd hx (by simp)
    · have hold : b ∈ (m.queues q').list := by
        by_cases hqq : q' = q
        · subst hqq
          rw [hlist]
          exact List.mem_cons_of_mem _ (hlist' ▸ hq')
        · rw [← hothers q' hqq]
          exact hq'
      obtain ⟨hearly, hdue⟩ := h.due b (Or.inr ⟨q', hold⟩)
      exact ⟨hearly, UInt64.le_trans hdue hclock⟩

theorem effect {l : Label} {x' : Option AlarmPtr} (h : Timely m x clock)
    (hw : Wellformed m x) (hr : Represents m x) (hr' : Represents m' x')
    (hok : NoStaleInstance m l) (hmono : (clock :: l.readings).Pairwise (· ≤ ·))
    (hfits : Scheduling DeadlineFits m l) (heffect : Effect l m x m' x') :
    Timely m' x' (tick clock l) := by
  have hclock : clock ≤ tick clock l := le_tick hmono (Or.inl rfl)
  cases heffect with
  | set hm => exact h.set hw hr hok hmono hfits hm
  | cancel => exact h.cancel hr' hmono
  | dispatch hm => exact h.dispatch hw hmono hfits hm
  | enqueue hm => exact h.enqueue hclock hm
  | dequeue hm => exact h.dequeue hr' hclock hm
  | same hm => exact h.congr hm hclock

end Timely

theorem timely_of_reachable {guard : System → Label → Prop}
    {home : AlarmPtr → QueuePtr} (hguard : ∀ s l, guard s l → Regular home s l)
    {isPeriodic : AlarmPtr → Bool} {capacity : QueuePtr → UInt64} {s : System}
    (h : Reachable (Guarded guard (Next System.step))
      (System.init isPeriodic capacity) s) : Timely s.mod s.inTransit s.clock := by
  refine h.induct (I := fun s => Timely s.mod s.inTransit s.clock)
    (Timely.init isPeriodic capacity) ?_
  rintro s l s' hreach hs ⟨hg, hstep⟩
  obtain ⟨hone, hmono, hfits⟩ := hguard s l hg
  have hsound := sound_of_reachable (fun s l hg => (hguard s l hg).1) hreach
  have hsound' := hsound.step hone hstep
  rw [step_clock hstep]
  exact hs.effect hsound.wellformed hsound.represents hsound'.represents
    (hsound.noStaleInstance hone) hmono hfits (step_effect hstep)

end Alarm

end Osi
