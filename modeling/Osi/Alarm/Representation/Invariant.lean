import Osi.Alarm.Wellformed

/-!
# The representation invariant of the alarm module

`Represents` is the full invariant: the list is sorted, an alarm is only ever
in its own queue, and `alarm->callback` says whether the alarm is somewhere. It
is kept as long as no alarm is set on another queue while an instance of it is
still waiting in its old one (`NoStaleInstance`), in particular when every
alarm always uses one queue.
-/

namespace Osi

namespace Alarm

open Transition AlarmState

structure Represents (m : AlarmState) (x : Option AlarmPtr) : Prop where
  sorted : m.alarms.Pairwise fun a b => (m.alarm a).deadline ≤ (m.alarm b).deadline
  home : ∀ a q, a ∈ (m.queues q).list → (m.alarm a).queue = some q
  scheduled_iff : ∀ a, (m.alarm a).callback.isSome ↔
    a ∈ m.alarms ∨ (∃ q, a ∈ (m.queues q).list) ∨ x = some a
  listed_of_periodic : ∀ a, (m.alarm a).isPeriodic = true →
    (m.alarm a).callback.isSome → a ∈ m.alarms

/-- The set of an alarm does not move it away from a queue that still holds an
instance of it. -/
def NoStaleInstance (m : AlarmState) : Label → Prop
  | .set r _ =>
      match (m.alarm r.alarm).queue with
      | none => True
      | some q => q = r.queue ∨ r.alarm ∉ (m.queues q).list
  | _ => True

instance (m : AlarmState) (l : Label) : Decidable (NoStaleInstance m l) :=
  match l with
  | .set r _ =>
      match h : (m.alarm r.alarm).queue with
      | none => isTrue (by simp [NoStaleInstance, h])
      | some q =>
          decidable_of_iff (q = r.queue ∨ r.alarm ∉ (m.queues q).list)
            (by simp [NoStaleInstance, h])
  | .cancel _ _ | .take | .dispatch _ | .enqueue | .dequeue _ _ | .invoke _ _
  | .finish _ _ | .expireTimer _ | .expireWakeupTimer _ => isTrue trivial

theorem noStaleInstance_set_iff {m : AlarmState} {r : SetArgs} {env : SetEnv} :
    NoStaleInstance m (.set r env) ↔
      ∀ q, (m.alarm r.alarm).queue = some q → q ≠ r.queue →
        r.alarm ∉ (m.queues q).list := by
  cases hq : (m.alarm r.alarm).queue with
  | none => simp [NoStaleInstance, hq]
  | some q =>
      simp only [NoStaleInstance, hq, Option.some.injEq, forall_eq']
      tauto

namespace Represents

variable {m m' : AlarmState} {x : Option AlarmPtr}

theorem init (isPeriodic : AlarmPtr → Bool) (capacity : QueuePtr → UInt64) :
    Represents (AlarmState.init isPeriodic capacity) none where
  sorted := List.Pairwise.nil
  home a q ha := absurd ha (by simp [AlarmState.init])
  scheduled_iff a := by simp [AlarmState.init, alarmNewInternal]
  listed_of_periodic a _ ha := absurd ha (by simp [AlarmState.init, alarmNewInternal])

theorem congr (h : Represents m x) (hsame : SameAlarms m m') : Represents m' x where
  sorted := by
    rw [hsame.alarms]
    simp only [hsame.deadline]
    exact h.sorted
  home a q := by
    rw [hsame.queue, hsame.queues]
    exact h.home a q
  scheduled_iff a := by
    rw [hsame.callback, hsame.alarms, hsame.queues]
    exact h.scheduled_iff a
  listed_of_periodic a := by
    rw [hsame.isPeriodic, hsame.callback, hsame.alarms]
    exact h.listed_of_periodic a

/-- The list stays sorted when an alarm that is not in it gets a new deadline
and is inserted by it. -/
theorem sorted_inserted {alarm alarm' : AlarmPtr → AlarmT} {a : AlarmPtr}
    {alarms : List AlarmPtr} (hnot : a ∉ alarms)
    (hothers : ∀ b, b ≠ a → (alarm' b).deadline = (alarm b).deadline)
    (hsorted : alarms.Pairwise
      fun x y => (alarm x).deadline ≤ (alarm y).deadline) :
    (inserted alarm' a alarms).Pairwise
      fun x y => (alarm' x).deadline ≤ (alarm' y).deadline := by
  have hne : ∀ b ∈ alarms, (alarm' b).deadline = (alarm b).deadline := by
    intro b hb
    exact hothers b fun hba => hnot (hba ▸ hb)
  have hsorted' : alarms.Pairwise
      fun x y => (alarm' x).deadline ≤ (alarm' y).deadline := by
    refine hsorted.imp_of_mem ?_
    intro x y hx hy hxy
    rw [hne x hx, hne y hy]
    exact hxy
  apply Collection.pairwise_orderedInsert hsorted'
  · intro y _ hlt
    exact UInt64.not_lt.mp hlt
  · intro y _ hlt
    exact UInt64.le_of_lt hlt
  · intro y _ z _ hyz hlt
    exact UInt64.lt_of_lt_of_le hlt hyz

/-- After a set the alarm is in no queue exactly when the set has left no stale
instance: the purge goes to the new queue only. -/
theorem not_mem_queues_iff (h : Represents m none) {r : SetArgs} {env : SetEnv}
    (hm : m.alarmSetInternal r env = .ok m') :
    (∀ q, r.alarm ∉ (m'.queues q).list) ↔ NoStaleInstance m (.set r env) := by
  obtain ⟨_, _, hpurge⟩ := alarmSetInternal_ok hm
  rw [noStaleInstance_set_iff]
  constructor
  · intro hgone q _ hne hmem
    apply hgone q
    refine (hpurge.mem_iff q).mpr ⟨hmem, ?_⟩
    rintro ⟨_, hqq⟩
    exact hne (Option.some.inj hqq).symm
  · intro hok q hmem'
    obtain ⟨hmem, hother⟩ := (hpurge.mem_iff q).mp hmem'
    refine hok q (h.home _ _ hmem) ?_ hmem
    rintro rfl
    exact hother ⟨rfl, rfl⟩

theorem set (h : Represents m none) (hw : Wellformed m none) {r : SetArgs}
    {env : SetEnv} (hok : NoStaleInstance m (.set r env))
    (hm : m.alarmSetInternal r env = .ok m') : Represents m' none := by
  have hgone := (h.not_mem_queues_iff hm).mpr hok
  obtain ⟨⟨stats, halarm⟩, halarms, hpurge⟩ := alarmSetInternal_ok hm
  have hself : (m'.alarm r.alarm).callback.isSome := by
    simp [halarm, scheduled, assigned]
  have hothers : ∀ b, b ≠ r.alarm → m'.alarm b = m.alarm b := by
    intro b hb
    rw [halarm, Function.update_of_ne hb]
  have hmem : ∀ b, b ∈ m'.alarms ↔ b = r.alarm ∨ b ∈ m.alarms := by
    intro b
    rw [halarms, hw.mem_reinserted]
  refine ⟨?_, ?_, ?_, ?_⟩
  · rw [halarms]
    apply sorted_inserted hw.nodup.not_mem_erase
    · intro b hb
      rw [hothers b hb]
    · exact h.sorted.sublist List.erase_sublist
  · intro b q hb
    by_cases hbr : b = r.alarm
    · exact absurd (hbr ▸ hb) (hgone q)
    · rw [hothers b hbr]
      exact h.home b q ((hpurge.list_sublist q).mem hb)
  · intro b
    rw [hmem]
    by_cases hbr : b = r.alarm
    · subst hbr
      simp [hself]
    · have hqueue : ∀ q, b ∈ (m'.queues q).list ↔ b ∈ (m.queues q).list := by
        intro q
        rw [hpurge.mem_iff]
        tauto
      rw [hothers b hbr, h.scheduled_iff b]
      simp [hbr, hqueue]
  · intro b hper hcb
    rw [hmem]
    by_cases hbr : b = r.alarm
    · exact Or.inl hbr
    · rw [hothers b hbr] at hper hcb
      exact Or.inr (h.listed_of_periodic b hper hcb)

theorem cancel (h : Represents m none) (hw : Wellformed m none) (a : AlarmPtr)
    (env : RescheduleEnv) : Represents (m.alarmCancel a env) none := by
  obtain ⟨⟨stats, halarm⟩, halarms, hpurge⟩ := alarmCancel_spec m a env
  have hself : (m.alarmCancel a env).alarm a =
      { m.alarm a with
        deadline := 0, prevDeadline := 0, callback := none, data := 0
        stats := stats } := by
    rw [halarm, Function.update_self]
  have hothers : ∀ b, b ≠ a → (m.alarmCancel a env).alarm b = m.alarm b := by
    intro b hb
    rw [halarm, Function.update_of_ne hb]
  have hmem : ∀ b, b ∈ (m.alarmCancel a env).alarms ↔ b ≠ a ∧ b ∈ m.alarms := by
    intro b
    rw [halarms, hw.nodup.mem_erase_iff]
  have hgone : ∀ q, a ∉ ((m.alarmCancel a env).queues q).list := by
    intro q
    rw [hpurge.mem_iff]
    rintro ⟨hq, hother⟩
    exact hother ⟨rfl, h.home a q hq⟩
  refine ⟨?_, ?_, ?_, ?_⟩
  · rw [halarms]
    refine (h.sorted.sublist List.erase_sublist).imp_of_mem ?_
    intro b c hb hc hbc
    rw [hothers b (hw.nodup.mem_erase_iff.mp hb).1,
      hothers c (hw.nodup.mem_erase_iff.mp hc).1]
    exact hbc
  · intro b q hb
    by_cases hba : b = a
    · exact absurd (hba ▸ hb) (hgone q)
    · rw [hothers b hba]
      exact h.home b q ((hpurge.list_sublist q).mem hb)
  · intro b
    rw [hmem]
    by_cases hba : b = a
    · subst hba
      simp [hself, hgone]
    · have hqueue : ∀ q, b ∈ ((m.alarmCancel a env).queues q).list ↔
          b ∈ (m.queues q).list := by
        intro q
        rw [hpurge.mem_iff]
        tauto
      rw [hothers b hba, h.scheduled_iff b]
      simp [hba, hqueue]
  · intro b hper hcb
    by_cases hba : b = a
    · subst hba
      rw [hself] at hcb
      exact absurd hcb (by simp)
    · rw [hothers b hba] at hper hcb
      exact (hmem b).mpr ⟨hba, h.listed_of_periodic b hper hcb⟩

theorem dispatch (h : Represents m none) (hw : Wellformed m none) {a : AlarmPtr}
    {env : DispatchEnv} (hm : m.callbackDispatch env = .ok (m', some a)) :
    Represents m' (some a) := by
  obtain ⟨rest, hcons, _, hsingle | hperiodic⟩ := callbackDispatch_some hm
  · obtain ⟨hper, halarm, halarms, hqueues⟩ := hsingle
    have hmem : ∀ b, b ∈ m.alarms ↔ b = a ∨ b ∈ m'.alarms := by
      intro b
      rw [halarms, hcons, List.mem_cons]
    refine ⟨?_, ?_, ?_, ?_⟩
    · rw [halarms, halarm]
      exact (List.pairwise_cons.mp (hcons ▸ h.sorted)).2
    · intro b q hb
      rw [halarm]
      exact h.home b q (hqueues ▸ hb)
    · intro b
      rw [halarm, hqueues, h.scheduled_iff b, hmem, Option.some.injEq]
      constructor
      · rintro ((rfl | hb) | hq | hx)
        · exact Or.inr (Or.inr rfl)
        · exact Or.inl hb
        · exact Or.inr (Or.inl hq)
        · exact absurd hx (by simp)
      · rintro (hb | hq | rfl)
        · exact Or.inl (Or.inr hb)
        · exact Or.inr (Or.inl hq)
        · exact Or.inl (Or.inl rfl)
    · intro b hb hcb
      rw [halarm] at hb hcb
      rcases (hmem b).mp (h.listed_of_periodic b hb hcb) with rfl | hb'
      · exact absurd (hper.symm.trans hb) (by simp)
      · exact hb'
  · obtain ⟨hper, ⟨stats, halarm⟩, hcb⟩ := hperiodic
    have hlisted : a ∈ m.alarms := by simp [hcons]
    obtain ⟨halarms, hpurge⟩ := hcb (hw.callback_of_periodic a hper hlisted)
    obtain ⟨hnot, _⟩ : a ∉ rest ∧ rest.Nodup := by
      simpa [hcons] using hw.nodup
    have hself : (m'.alarm a).callback = (m.alarm a).callback := by
      rw [halarm, Function.update_self]
      rfl
    have hothers : ∀ b, b ≠ a → m'.alarm b = m.alarm b := by
      intro b hb
      rw [halarm, Function.update_of_ne hb]
    have hmem : ∀ b, b ∈ m'.alarms ↔ b ∈ m.alarms := by
      intro b
      rw [halarms, mem_inserted, List.erase_of_not_mem hnot, hcons, List.mem_cons]
    refine ⟨?_, ?_, ?_, ?_⟩
    · rw [halarms, List.erase_of_not_mem hnot]
      apply sorted_inserted hnot
      · intro b hb
        rw [hothers b hb]
      · exact (List.pairwise_cons.mp (hcons ▸ h.sorted)).2
    · intro b q hb
      obtain ⟨hb', hother⟩ := hpurge.mem_iff q |>.mp hb
      by_cases hba : b = a
      · subst hba
        exact absurd ⟨rfl, h.home b q hb'⟩ hother
      · rw [hothers b hba]
        exact h.home b q hb'
    · intro b
      rw [hmem]
      by_cases hba : b = a
      · subst hba
        rw [hself]
        simp [hlisted, h.scheduled_iff b]
      · have hqueue : ∀ q, b ∈ (m'.queues q).list ↔ b ∈ (m.queues q).list := by
          intro q
          rw [hpurge.mem_iff]
          tauto
        rw [hothers b hba, h.scheduled_iff b]
        simp [hqueue, Ne.symm hba]
    · intro b hb hcb
      rw [hmem]
      by_cases hba : b = a
      · exact hba ▸ hlisted
      · rw [hothers b hba] at hb hcb
        exact h.listed_of_periodic b hb hcb

theorem enqueue {a : AlarmPtr} (h : Represents m (some a))
    (hm : m.callbackDispatchEnqueue a = .ok m') : Represents m' none := by
  obtain ⟨halarm, halarms, q₀, hq₀, _, hlist, _, hothers⟩ :=
    callbackDispatchEnqueue_ok hm
  have hmem : ∀ b q, b ∈ (m'.queues q).list ↔
      b ∈ (m.queues q).list ∨ (b = a ∧ q = q₀) := by
    intro b q
    by_cases hq : q = q₀
    · subst hq
      simp [hlist]
    · simp [hothers q hq, hq]
  refine ⟨?_, ?_, ?_, ?_⟩
  · rw [halarm, halarms]
    exact h.sorted
  · intro b q hb
    rw [halarm]
    rcases (hmem b q).mp hb with hb' | ⟨rfl, rfl⟩
    · exact h.home b q hb'
    · exact hq₀
  · intro b
    rw [halarm, halarms, h.scheduled_iff b, Option.some.injEq]
    simp only [hmem]
    constructor
    · rintro (hb | ⟨q, hq⟩ | rfl)
      · exact Or.inl hb
      · exact Or.inr (Or.inl ⟨q, Or.inl hq⟩)
      · exact Or.inr (Or.inl ⟨q₀, Or.inr ⟨rfl, rfl⟩⟩)
    · rintro (hb | ⟨q, hq | ⟨rfl, _⟩⟩ | hx)
      · exact Or.inl hb
      · exact Or.inr (Or.inl ⟨q, hq⟩)
      · exact Or.inr (Or.inr rfl)
      · exact absurd hx (by simp)
  · intro b
    rw [halarm, halarms]
    exact h.listed_of_periodic b

/-- A single-shot alarm that waits in a queue is not in the list. -/
theorem not_listed_of_queued (h : Represents m x) (hw : Wellformed m x)
    {a : AlarmPtr} {q : QueuePtr} (hper : (m.alarm a).isPeriodic = false)
    (ha : a ∈ (m.queues q).list) : a ∉ m.alarms := by
  intro hlisted
  exact hw.fresh a q hper hlisted (h.home a q ha) ha

theorem callback_of_queued (h : Represents m x) {a : AlarmPtr} {q : QueuePtr}
    (ha : a ∈ (m.queues q).list) : (m.alarm a).callback.isSome :=
  (h.scheduled_iff a).mpr (Or.inr (Or.inl ⟨q, ha⟩))

theorem dequeue (h : Represents m none) (hw : Wellformed m none) {q : QueuePtr}
    {i : Instance} (hm : m.alarmQueueReady q = (m', some i)) :
    Represents m' none := by
  obtain ⟨⟨rest, hlist, hlist'⟩, _, halarm, halarms, _, hothers⟩ :=
    alarmQueueReady_some hm
  have hqueued : i.alarm ∈ (m.queues q).list := by simp [hlist]
  have hcb := h.callback_of_queued hqueued
  have hrest : i.alarm ∉ rest := by
    have := hw.queue_nodup q
    rw [hlist] at this
    exact (List.nodup_cons.mp this).1
  have hmem : ∀ b q', b ∈ (m'.queues q').list ↔
      b ∈ (m.queues q').list ∧ b ≠ i.alarm := by
    intro b q'
    by_cases hq : q' = q
    · subst hq
      rw [hlist, hlist', List.mem_cons]
      constructor
      · intro hb
        exact ⟨Or.inr hb, fun hbi => hrest (hbi ▸ hb)⟩
      · rintro ⟨rfl | hb, hne⟩
        · exact absurd rfl hne
        · exact hb
    · rw [hothers q' hq]
      refine ⟨fun hb => ⟨hb, ?_⟩, And.left⟩
      -- the alarm is only in its own queue
      rintro rfl
      have := (h.home _ _ hb).symm.trans (h.home _ _ hqueued)
      exact hq (Option.some.inj this)
  have hne : ∀ b, b ≠ i.alarm → m'.alarm b = m.alarm b := by
    intro b hb
    rw [halarm, Function.update_of_ne hb]
  cases hper : (m.alarm i.alarm).isPeriodic with
  | true =>
      have hlisted := h.listed_of_periodic _ hper hcb
      have hsame : m'.alarm = m.alarm := by
        rw [halarm, serviced, if_pos hper, Function.update_eq_self]
      refine ⟨?_, ?_, ?_, ?_⟩
      · rw [hsame, halarms]
        exact h.sorted
      · intro b q' hb
        rw [hsame]
        exact h.home b q' ((hmem b q').mp hb).1
      · intro b
        rw [hsame, halarms, h.scheduled_iff b]
        by_cases hbi : b = i.alarm
        · simp [hbi, hlisted]
        · simp [hmem, hbi]
      · intro b
        rw [hsame, halarms]
        exact h.listed_of_periodic b
  | false =>
      have hlisted := h.not_listed_of_queued hw hper hqueued
      have hself : (m'.alarm i.alarm).callback = none := by
        rw [halarm, Function.update_self, serviced, if_neg (by simp [hper])]
      refine ⟨?_, ?_, ?_, ?_⟩
      · rw [halarms]
        refine h.sorted.imp_of_mem ?_
        intro b c hb hc hbc
        rw [hne b fun hbi => hlisted (hbi ▸ hb), hne c fun hci => hlisted (hci ▸ hc)]
        exact hbc
      · intro b q' hb
        obtain ⟨hb', hbi⟩ := (hmem b q').mp hb
        rw [hne b hbi]
        exact h.home b q' hb'
      · intro b
        rw [halarms]
        by_cases hbi : b = i.alarm
        · simp [hbi, hself, hlisted, hmem]
        · rw [hne b hbi, h.scheduled_iff b]
          simp [hmem, hbi]
      · intro b hb hcb'
        rw [halarms]
        by_cases hbi : b = i.alarm
        · rw [hbi, hself] at hcb'
          exact absurd hcb' (by simp)
        · rw [hne b hbi] at hb hcb'
          exact h.listed_of_periodic b hb hcb'

theorem instance_callback (h : Represents m x) {q : QueuePtr} {i : Instance}
    (hm : m.alarmQueueReady q = (m', some i)) : i.callback ≠ none := by
  obtain ⟨⟨rest, hlist, _⟩, hi, _⟩ := alarmQueueReady_some hm
  have hqueued : i.alarm ∈ (m.queues q).list := by simp [hlist]
  rw [hi]
  exact Option.isSome_iff_ne_none.mp (h.callback_of_queued hqueued)

/-- Taking an instance from a queue leaves the deadlines in the list alone. -/
theorem dequeue_deadline (h : Represents m x) (hw : Wellformed m x) {q : QueuePtr}
    {i : Instance} (hm : m.alarmQueueReady q = (m', some i)) {a : AlarmPtr}
    (ha : a ∈ m.alarms) : (m'.alarm a).deadline = (m.alarm a).deadline := by
  obtain ⟨⟨rest, hlist, _⟩, _⟩ := alarmQueueReady_some hm
  have hqueued : i.alarm ∈ (m.queues q).list := by simp [hlist]
  rw [alarmQueueReady_alarm_eq hm]
  rintro rfl
  by_contra hsingle
  exact h.not_listed_of_queued hw (by simpa using hsingle) hqueued ha

theorem effect {l : Label} {x' : Option AlarmPtr} (h : Represents m x)
    (hw : Wellformed m x) (hok : NoStaleInstance m l)
    (heffect : Effect l m x m' x') : Represents m' x' := by
  cases heffect with
  | set hm => exact h.set hw hok hm
  | cancel => exact h.cancel hw _ _
  | dispatch hm => exact h.dispatch hw hm
  | enqueue hm => exact h.enqueue hm
  | dequeue hm => exact h.dequeue hw hm
  | same hm => exact h.congr hm

end Represents

end Alarm

end Osi
