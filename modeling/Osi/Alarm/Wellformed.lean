import Osi.Alarm.Effect

/-!
# The invariant of every run

An alarm lives in up to two containers, the sorted list of alarms and its
processing queue, and for the length of one `fixed_queue_enqueue` it may be in
the hands of the dispatcher; the optional alarm `x` below is that one. Whatever
queues the alarms are set on, no container holds an alarm twice, and an alarm
that is about to be enqueued is not yet in its queue.
-/

namespace Osi

namespace Alarm

open Transition AlarmState

structure Wellformed (m : AlarmState) (x : Option AlarmPtr) : Prop where
  nodup : m.alarms.Nodup
  queue_nodup : ∀ q, (m.queues q).list.Nodup
  callback_of_periodic : ∀ a, (m.alarm a).isPeriodic = true → a ∈ m.alarms →
    (m.alarm a).callback.isSome
  fresh : ∀ a q, (m.alarm a).isPeriodic = false → a ∈ m.alarms →
    (m.alarm a).queue = some q → a ∉ (m.queues q).list
  transit_fresh : ∀ a q, x = some a → (m.alarm a).queue = some q →
    a ∉ (m.queues q).list
  transit_not_listed : ∀ a, (m.alarm a).isPeriodic = false → x = some a →
    a ∉ m.alarms

namespace Wellformed

variable {m m' : AlarmState} {x : Option AlarmPtr}

theorem init (isPeriodic : AlarmPtr → Bool) (capacity : QueuePtr → UInt64) :
    Wellformed (AlarmState.init isPeriodic capacity) none where
  nodup := List.nodup_nil
  queue_nodup _ := List.nodup_nil
  callback_of_periodic a _ ha := absurd ha (by simp [AlarmState.init])
  fresh a q _ ha := absurd ha (by simp [AlarmState.init])
  transit_fresh a q hx := absurd hx (by simp)
  transit_not_listed a _ hx := absurd hx (by simp)

theorem congr (h : Wellformed m x) (hsame : SameAlarms m m') : Wellformed m' x where
  nodup := hsame.alarms ▸ h.nodup
  queue_nodup := hsame.queues ▸ h.queue_nodup
  callback_of_periodic a := by
    rw [hsame.isPeriodic, hsame.callback, hsame.alarms]
    exact h.callback_of_periodic a
  fresh a q := by
    rw [hsame.isPeriodic, hsame.queue, hsame.alarms, hsame.queues]
    exact h.fresh a q
  transit_fresh a q := by
    rw [hsame.queue, hsame.queues]
    exact h.transit_fresh a q
  transit_not_listed a := by
    rw [hsame.isPeriodic, hsame.alarms]
    exact h.transit_not_listed a

/-- Membership in the list after `a` has been taken out and put back by its
deadline. -/
theorem mem_reinserted (h : Wellformed m x) {alarm : AlarmPtr → AlarmT}
    {a b : AlarmPtr} :
    b ∈ inserted alarm a (m.alarms.erase a) ↔ b = a ∨ b ∈ m.alarms := by
  rw [mem_inserted, h.nodup.mem_erase_iff]
  by_cases hb : b = a <;> simp [hb]

theorem nodup_reinserted (h : Wellformed m x) (alarm : AlarmPtr → AlarmT)
    (a : AlarmPtr) : (inserted alarm a (m.alarms.erase a)).Nodup :=
  Collection.nodup_orderedInsert (h.nodup.erase a) h.nodup.not_mem_erase

theorem set (h : Wellformed m none) {r : SetArgs} {env : SetEnv}
    (hm : m.alarmSetInternal r env = .ok m') : Wellformed m' none := by
  obtain ⟨⟨stats, halarm⟩, halarms, hpurge⟩ := alarmSetInternal_ok hm
  refine ⟨?_, ?_, ?_, ?_, by simp, by simp⟩
  · rw [halarms]
    exact h.nodup_reinserted _ _
  · intro q
    exact (h.queue_nodup q).sublist (hpurge.list_sublist q)
  · intro a hper ha
    rw [halarms, h.mem_reinserted] at ha
    rw [halarm] at hper ⊢
    by_cases har : a = r.alarm
    · subst har
      simp [scheduled, assigned]
    · rw [Function.update_of_ne har] at hper ⊢
      exact h.callback_of_periodic a hper (ha.resolve_left har)
  · intro a q hper ha hq
    rw [halarms, h.mem_reinserted] at ha
    rw [halarm] at hper hq
    rw [hpurge.mem_iff]
    by_cases har : a = r.alarm
    · subst har
      have hqq : some r.queue = some q := by
        simpa [scheduled, assigned] using hq
      simp [hqq]
    · rw [Function.update_of_ne har] at hper hq
      have := h.fresh a q hper (ha.resolve_left har) hq
      tauto

theorem cancel (h : Wellformed m none) (a : AlarmPtr) (env : RescheduleEnv) :
    Wellformed (m.alarmCancel a env) none := by
  obtain ⟨⟨stats, halarm⟩, halarms, hpurge⟩ := alarmCancel_spec m a env
  have hmem : ∀ b, b ∈ (m.alarmCancel a env).alarms → b ≠ a ∧ b ∈ m.alarms := by
    intro b hb
    rw [halarms, h.nodup.mem_erase_iff] at hb
    exact hb
  refine ⟨?_, ?_, ?_, ?_, by simp, by simp⟩
  · rw [halarms]
    exact h.nodup.erase a
  · intro q
    exact (h.queue_nodup q).sublist (hpurge.list_sublist q)
  · intro b hper hb
    obtain ⟨hba, hb'⟩ := hmem b hb
    rw [halarm, Function.update_of_ne hba] at hper ⊢
    exact h.callback_of_periodic b hper hb'
  · intro b q hper hb hq
    obtain ⟨hba, hb'⟩ := hmem b hb
    rw [halarm, Function.update_of_ne hba] at hper hq
    have := h.fresh b q hper hb' hq
    rw [hpurge.mem_iff]
    tauto

theorem dispatch (h : Wellformed m none) {a : AlarmPtr} {env : DispatchEnv}
    (hm : m.callbackDispatch env = .ok (m', some a)) : Wellformed m' (some a) := by
  obtain ⟨rest, hcons, _, hsingle | hperiodic⟩ := callbackDispatch_some hm
  · obtain ⟨hper, halarm, halarms, hqueues⟩ := hsingle
    have hlisted : a ∈ m.alarms := by simp [hcons]
    obtain ⟨hnot, hrest⟩ : a ∉ rest ∧ rest.Nodup := by
      simpa [hcons] using h.nodup
    have hsub : ∀ b ∈ m'.alarms, b ∈ m.alarms := by
      intro b hb
      rw [halarms] at hb
      simp [hcons, hb]
    refine ⟨halarms ▸ hrest, hqueues ▸ h.queue_nodup, ?_, ?_, ?_, ?_⟩
    · intro b hb hmem
      rw [halarm] at hb ⊢
      exact h.callback_of_periodic b hb (hsub b hmem)
    · intro b q hb hmem hq
      rw [halarm] at hb hq
      rw [hqueues]
      exact h.fresh b q hb (hsub b hmem) hq
    · rintro b q ⟨rfl⟩ hq
      rw [halarm] at hq
      rw [hqueues]
      exact h.fresh a q hper hlisted hq
    · rintro b _ ⟨rfl⟩
      rw [halarms]
      exact hnot
  · obtain ⟨hper, ⟨stats, halarm⟩, hcb⟩ := hperiodic
    have hlisted : a ∈ m.alarms := by simp [hcons]
    obtain ⟨halarms, hpurge⟩ := hcb (h.callback_of_periodic a hper hlisted)
    obtain ⟨hnot, hrest⟩ : a ∉ rest ∧ rest.Nodup := by
      simpa [hcons] using h.nodup
    have hsub : ∀ b ∈ m'.alarms, b = a ∨ b ∈ m.alarms := by
      intro b hb
      rw [halarms, mem_inserted, List.erase_of_not_mem hnot] at hb
      simp only [hcons, List.mem_cons]
      tauto
    have ha' : m'.alarm a =
        { rearmed (m.alarm a) env.schedule.now with stats := stats } := by
      rw [halarm, Function.update_self]
    have hothers : ∀ b, b ≠ a → m'.alarm b = m.alarm b := by
      intro b hb
      rw [halarm, Function.update_of_ne hb]
    refine ⟨?_, ?_, ?_, ?_, ?_, ?_⟩
    · rw [halarms, List.erase_of_not_mem hnot]
      exact Collection.nodup_orderedInsert hrest hnot
    · intro q
      exact (h.queue_nodup q).sublist (hpurge.list_sublist q)
    · intro b hb hmem
      by_cases hba : b = a
      · subst hba
        rw [ha']
        exact h.callback_of_periodic b hper hlisted
      · rw [hothers b hba] at hb ⊢
        exact h.callback_of_periodic b hb ((hsub b hmem).resolve_left hba)
    · intro b q hb hmem hq
      rw [hpurge.mem_iff]
      by_cases hba : b = a
      · subst hba
        rw [ha'] at hq
        have hq' : (m.alarm b).queue = some q := hq
        simp [hq']
      · rw [hothers b hba] at hb hq
        have := h.fresh b q hb ((hsub b hmem).resolve_left hba) hq
        tauto
    · rintro b q ⟨rfl⟩ hq
      rw [ha'] at hq
      have hq' : (m.alarm a).queue = some q := hq
      rw [hpurge.mem_iff]
      simp [hq']
    · rintro b hb ⟨rfl⟩
      rw [ha'] at hb
      exact absurd (hper.symm.trans hb) (by simp)

theorem enqueue {a : AlarmPtr} (h : Wellformed m (some a))
    (hm : m.callbackDispatchEnqueue a = .ok m') : Wellformed m' none := by
  obtain ⟨halarm, halarms, q₀, hq₀, _, hlist, _, hothers⟩ :=
    callbackDispatchEnqueue_ok hm
  have ha := h.transit_fresh a q₀ rfl hq₀
  have hmem : ∀ b q, b ∈ (m'.queues q).list →
      b ∈ (m.queues q).list ∨ (b = a ∧ q = q₀) := by
    intro b q hb
    by_cases hq : q = q₀
    · subst hq
      rw [hlist] at hb
      simpa using hb
    · rw [hothers q hq] at hb
      exact Or.inl hb
  refine ⟨halarms ▸ h.nodup, ?_, ?_, ?_, by simp, by simp⟩
  · intro q
    by_cases hq : q = q₀
    · subst hq
      rw [hlist]
      exact (h.queue_nodup q).append (List.nodup_singleton a) (by simpa using ha)
    · rw [hothers q hq]
      exact h.queue_nodup q
  · intro b hb hb'
    rw [halarm] at hb ⊢
    exact h.callback_of_periodic b hb (halarms ▸ hb')
  · intro b q hb hb' hq hbq
    rw [halarm] at hb hq
    rw [halarms] at hb'
    rcases hmem b q hbq with hold | ⟨rfl, _⟩
    · exact h.fresh b q hb hb' hq hold
    · exact h.transit_not_listed b hb rfl hb'

theorem dequeue (h : Wellformed m none) {q : QueuePtr} {i : Instance}
    (hm : m.alarmQueueReady q = (m', some i)) : Wellformed m' none := by
  obtain ⟨⟨rest, hlist, hlist'⟩, _, halarm, halarms, _, hothers⟩ :=
    alarmQueueReady_some hm
  have hsub : ∀ q', (m'.queues q').list.Sublist (m.queues q').list := by
    intro q'
    by_cases hq : q' = q
    · subst hq
      rw [hlist, hlist']
      exact List.sublist_cons_self _ _
    · rw [hothers q' hq]
  have hper := field_eq_of_update AlarmT.isPeriodic halarm (serviced_fields _).1
  have hqueue := field_eq_of_update AlarmT.queue halarm (serviced_fields _).2.1
  refine ⟨halarms ▸ h.nodup, ?_, ?_, ?_, by simp, by simp⟩
  · intro q'
    exact (h.queue_nodup q').sublist (hsub q')
  · intro b hb hb'
    rw [hper] at hb
    rw [halarms] at hb'
    rw [alarmQueueReady_alarm_eq hm fun _ => hb]
    exact h.callback_of_periodic b hb hb'
  · intro b q' hb hb' hq hbq
    rw [hper] at hb
    rw [hqueue] at hq
    rw [halarms] at hb'
    exact h.fresh b q' hb hb' hq ((hsub q').mem hbq)

theorem effect {l : Label} {x' : Option AlarmPtr} (h : Wellformed m x)
    (heffect : Effect l m x m' x') : Wellformed m' x' := by
  cases heffect with
  | set hm => exact h.set hm
  | cancel => exact h.cancel _ _
  | dispatch hm => exact h.dispatch hm
  | enqueue hm => exact h.enqueue hm
  | dequeue hm => exact h.dequeue hm
  | same hm => exact h.congr hm

end Wellformed

theorem wellformed_of_reachable {guard : System → Label → Prop}
    {isPeriodic : AlarmPtr → Bool} {capacity : QueuePtr → UInt64} {s : System}
    (h : Reachable (Guarded guard (Next System.step))
      (System.init isPeriodic capacity) s) : Wellformed s.mod s.inTransit := by
  refine h.invariant (I := fun s => Wellformed s.mod s.inTransit) ?_
    (Wellformed.init isPeriodic capacity)
  rintro s l s' hs ⟨_, hstep⟩
  exact hs.effect (System.step_effect hstep)

namespace Effect

variable {l : Label} {a : AlarmPtr} {m m' : AlarmState} {x x' : Option AlarmPtr}

/-- An alarm comes into the list only by a set, and into the hands of the
dispatcher from the list. -/
theorem pending_of (h : Effect l m x m' x') (hw : Wellformed m x)
    (hpending : a ∈ m'.alarms ∨ x' = some a) :
    (a ∈ m.alarms ∨ x = some a) ∨
      ∃ r env, l = .set r env ∧ r.alarm = a ∧ (m'.alarm a).queue = some r.queue := by
  cases h with
  | @set _ _ r env hm =>
      obtain ⟨⟨stats, halarm⟩, halarms, _⟩ := alarmSetInternal_ok hm
      rcases hpending with hlisted | hx
      · rw [halarms, hw.mem_reinserted] at hlisted
        rcases hlisted with rfl | hlisted
        · refine Or.inr ⟨r, env, rfl, rfl, ?_⟩
          rw [halarm, Function.update_self]
          rfl
        · exact Or.inl (Or.inl hlisted)
      · cases hx
  | @cancel _ b env =>
      obtain ⟨_, halarms, _⟩ := alarmCancel_spec m b env
      rcases hpending with hlisted | hx
      · rw [halarms] at hlisted
        exact Or.inl (Or.inl (List.mem_of_mem_erase hlisted))
      · cases hx
  | @dispatch _ _ b env hm =>
      obtain ⟨rest, hcons, _, hsingle | hperiodic⟩ := callbackDispatch_some hm
      · obtain ⟨_, _, halarms, _⟩ := hsingle
        rw [halarms] at hpending
        refine Or.inl (Or.inl ?_)
        rw [hcons, List.mem_cons]
        rcases hpending with hlisted | hx
        · exact Or.inr hlisted
        · exact Or.inl (Option.some.inj hx).symm
      · obtain ⟨hper, _, hcb⟩ := hperiodic
        have hb : b ∈ m.alarms := by simp [hcons]
        obtain ⟨halarms, _⟩ := hcb (hw.callback_of_periodic b hper hb)
        rw [halarms, mem_inserted] at hpending
        refine Or.inl (Or.inl ?_)
        rw [hcons, List.mem_cons]
        rcases hpending with (rfl | hlisted) | hx
        · exact Or.inl rfl
        · exact Or.inr (List.mem_of_mem_erase hlisted)
        · exact Or.inl (Option.some.inj hx).symm
  | @enqueue _ _ b hm =>
      obtain ⟨_, halarms, _⟩ := callbackDispatchEnqueue_ok hm
      rcases hpending with hlisted | hx
      · rw [halarms] at hlisted
        exact Or.inl (Or.inl hlisted)
      · cases hx
  | @dequeue _ _ t q i hm =>
      obtain ⟨_, _, _, halarms, _⟩ := alarmQueueReady_some hm
      rcases hpending with hlisted | hx
      · rw [halarms] at hlisted
        exact Or.inl (Or.inl hlisted)
      · cases hx
  | same hm =>
      rw [hm.alarms] at hpending
      exact Or.inl hpending

/-- An alarm comes into a queue only from the hands of the dispatcher. -/
theorem queued_of (h : Effect l m x m' x') (hw : Wellformed m x) {q : QueuePtr}
    (hq : a ∈ (m'.queues q).list) :
    a ∈ (m.queues q).list ∨ x = some a ∧ (m.alarm a).queue = some q := by
  cases h with
  | @set _ _ r env hm =>
      obtain ⟨_, _, hpurge⟩ := alarmSetInternal_ok hm
      exact Or.inl ((hpurge.list_sublist q).mem hq)
  | @cancel _ b env =>
      obtain ⟨_, _, hpurge⟩ := alarmCancel_spec m b env
      exact Or.inl ((hpurge.list_sublist q).mem hq)
  | @dispatch _ _ b env hm =>
      obtain ⟨rest, hcons, _, ⟨_, _, _, hqueues⟩ | ⟨hper, _, hcb⟩⟩ :=
        callbackDispatch_some hm
      · rw [hqueues] at hq
        exact Or.inl hq
      · have hb : b ∈ m.alarms := by simp [hcons]
        obtain ⟨_, hpurge⟩ := hcb (hw.callback_of_periodic b hper hb)
        exact Or.inl ((hpurge.list_sublist q).mem hq)
  | @enqueue _ _ b hm =>
      obtain ⟨_, _, q₀, hq₀, _, hlist, _, hothers⟩ := callbackDispatchEnqueue_ok hm
      by_cases hqq : q = q₀
      · subst hqq
        rw [hlist, List.mem_append, List.mem_singleton] at hq
        rcases hq with hq | rfl
        · exact Or.inl hq
        · exact Or.inr ⟨rfl, hq₀⟩
      · rw [hothers q hqq] at hq
        exact Or.inl hq
  | @dequeue _ _ t q₀ i hm =>
      obtain ⟨⟨rest, hlist, hlist'⟩, _, _, _, _, hothers⟩ := alarmQueueReady_some hm
      by_cases hqq : q = q₀
      · subst hqq
        rw [hlist'] at hq
        exact Or.inl (hlist ▸ List.mem_cons_of_mem _ hq)
      · rw [hothers q hqq] at hq
        exact Or.inl hq
  | same hm =>
      rw [hm.queues] at hq
      exact Or.inl hq

end Effect

end Alarm

end Osi
