import Osi.Alarm.History
import Osi.Alarm.Timely

/-!
# Where an alarm is, by the history

An alarm waits in a queue exactly after the dispatcher has put it there, so the
last event that moved it is a dispatch, later than the last assignment. A
single-shot alarm that is still in the list, or in the hands of the dispatcher,
has not been dispatched since it was set.
-/

namespace Osi

namespace Alarm

open Transition AlarmState Collection

structure Tracked (isPeriodic : AlarmPtr → Bool) (s : System) : Prop where
  queued : ∀ a q, a ∈ (s.mod.queues q).list → ∃ p,
    IsLast (Event.Moves a) s.hist p
      (.dispatch a (dispatchedDeadline (s.mod.alarm a))) ∧
      ∀ n e, IsLast (Event.Assigns isPeriodic a) s.hist n e → n < p
  fresh : ∀ a, isPeriodic a = false → a ∈ s.mod.alarms ∨ s.inTransit = some a →
    ∀ n e, IsLast (Event.Assigns isPeriodic a) s.hist n e →
      ∀ p d, s.hist[p]? = some (.dispatch a d) → p < n

namespace Tracked

variable {isPeriodic : AlarmPtr → Bool} {s s' : System}

/-- The queued alarm `a` through one more event that neither moves nor assigns
it. -/
theorem queued_concat (h : Tracked isPeriodic s) {a : AlarmPtr} {q : QueuePtr}
    {e : Event} (hhist : s'.hist = s.hist ++ [e]) (ha : a ∈ (s.mod.queues q).list)
    (hmoves : ¬ e.Moves a) (hassigns : ¬ e.Assigns isPeriodic a)
    (hd : dispatchedDeadline (s'.mod.alarm a) = dispatchedDeadline (s.mod.alarm a)) :
    ∃ p, IsLast (Event.Moves a) s'.hist p
      (.dispatch a (dispatchedDeadline (s'.mod.alarm a))) ∧
      ∀ n e, IsLast (Event.Assigns isPeriodic a) s'.hist n e → n < p := by
  obtain ⟨p, hp, hn⟩ := h.queued a q ha
  rw [hhist, hd]
  refine ⟨p, (IsLast.concat_iff_of_not hmoves).mpr hp, ?_⟩
  intro n e' he'
  exact hn n e' ((IsLast.concat_iff_of_not hassigns).mp he')

/-- The waiting single-shot alarm `a` through one more event that neither
dispatches nor assigns it. -/
theorem fresh_concat (h : Tracked isPeriodic s) {a : AlarmPtr} {e : Event}
    (hhist : s'.hist = s.hist ++ [e]) (hsingle : isPeriodic a = false)
    (ha : a ∈ s.mod.alarms ∨ s.inTransit = some a)
    (hdispatch : ¬ e.Dispatches a) (hassigns : ¬ e.Assigns isPeriodic a)
    (n : ℕ) (e' : Event) (he' : IsLast (Event.Assigns isPeriodic a) s'.hist n e')
    (p : ℕ) (d : PeriodMs) (hp : s'.hist[p]? = some (.dispatch a d)) : p < n := by
  rw [hhist] at he' hp
  rcases getElem?_concat_iff.mp hp with hp | ⟨_, rfl⟩
  · exact h.fresh a hsingle ha n e' ((IsLast.concat_iff_of_not hassigns).mp he') p d hp
  · exact absurd rfl hdispatch

theorem set (h : Tracked isPeriodic s) (hw : Wellformed s.mod s.inTransit)
    (hr : Represents s.mod s.inTransit) {r : SetArgs} {env : SetEnv}
    (hok : NoStaleInstance s.mod (.set r env))
    (hm : s.mod.alarmSetInternal r env = .ok s'.mod) (hx : s.inTransit = none)
    (hx' : s'.inTransit = none)
    (hhist : s'.hist =
      s.hist ++ [.set r env.creationTime (s'.mod.alarm r.alarm).deadline]) :
    Tracked isPeriodic s' := by
  rw [hx] at hw hr
  have hgone := (hr.not_mem_queues_iff hm).mpr hok
  obtain ⟨⟨stats, halarm⟩, halarms, hpurge⟩ := alarmSetInternal_ok hm
  have hassigns : ∀ a, a ≠ r.alarm → ¬ (Event.set r env.creationTime
      (s'.mod.alarm r.alarm).deadline).Assigns isPeriodic a :=
    fun a ha => Event.not_assigns_set ha _ _
  refine ⟨?_, ?_⟩
  · intro a q ha
    have hne : a ≠ r.alarm := by
      rintro rfl
      exact hgone q ha
    refine h.queued_concat hhist ((hpurge.list_sublist q).mem ha) ?_ (hassigns a hne) ?_
    · rintro (hfalse | hfalse) <;> exact hfalse
    · rw [halarm, Function.update_of_ne hne]
  · intro a hsingle ha
    by_cases har : a = r.alarm
    · subst har
      intro n e he p d hp
      rw [hhist] at he hp
      have hself : (Event.set r env.creationTime
          (s'.mod.alarm r.alarm).deadline).Assigns isPeriodic r.alarm := Or.inl rfl
      obtain ⟨rfl, _⟩ := (IsLast.concat_iff_of hself).mp he
      rcases getElem?_concat_iff.mp hp with hp | ⟨_, hfalse⟩
      · exact lt_length_of_getElem? hp
      · cases hfalse
    · rw [hx', halarms, hw.mem_reinserted] at ha
      refine h.fresh_concat hhist hsingle ?_ id (hassigns a har)
      rcases ha with (rfl | ha) | ha
      · exact absurd rfl har
      · exact Or.inl ha
      · exact absurd ha (by simp)

theorem cancel (h : Tracked isPeriodic s) {b : AlarmPtr} {env : RescheduleEnv}
    (hr' : Represents s'.mod s'.inTransit) (hm : s'.mod = s.mod.alarmCancel b env)
    (hx' : s'.inTransit = none) (hhist : s'.hist = s.hist ++ [.cancel b]) :
    Tracked isPeriodic s' := by
  obtain ⟨⟨stats, halarm⟩, halarms, hpurge⟩ := alarmCancel_spec s.mod b env
  rw [← hm] at halarm halarms hpurge
  have hgone : ¬ (s'.mod.alarm b).callback.isSome := by simp [halarm]
  rw [hr'.scheduled_iff b, not_or, not_or] at hgone
  have hassigns : ∀ a, a ≠ b → ¬ (Event.cancel b).Assigns isPeriodic a := by
    rintro a ha (hfalse | hba | ⟨_, hfalse⟩)
    · exact hfalse
    · exact ha hba.symm
    · exact hfalse
  refine ⟨?_, ?_⟩
  · intro a q ha
    have hne : a ≠ b := by
      rintro rfl
      exact hgone.2.1 ⟨q, ha⟩
    refine h.queued_concat hhist ((hpurge.list_sublist q).mem ha) ?_ (hassigns a hne) ?_
    · rintro (hfalse | hfalse) <;> exact hfalse
    · rw [halarm, Function.update_of_ne hne]
  · intro a hsingle ha
    rw [hx'] at ha
    have hlisted : a ∈ s'.mod.alarms := ha.resolve_right (by simp)
    have hne : a ≠ b := by
      rintro rfl
      exact hgone.1 hlisted
    refine h.fresh_concat hhist hsingle (Or.inl ?_) id (hassigns a hne)
    exact List.mem_of_mem_erase (halarms ▸ hlisted)

theorem dispatch (h : Tracked isPeriodic s) (hw : Wellformed s.mod s.inTransit)
    (hw' : Wellformed s'.mod s'.inTransit) (hr' : Represents s'.mod s'.inTransit)
    (hkind : ∀ a, (s.mod.alarm a).isPeriodic = isPeriodic a)
    {b : AlarmPtr} {env : DispatchEnv}
    (hm : s.mod.callbackDispatch env = .ok (s'.mod, some b))
    (hx' : s'.inTransit = some b) (hhist : s'.hist = s.hist) :
    Tracked isPeriodic s' := by
  obtain ⟨rest, hcons, _, hsingle | hperiodic⟩ := callbackDispatch_some hm
  · obtain ⟨_, halarm, halarms, hqueues⟩ := hsingle
    refine ⟨?_, ?_⟩
    · intro a q ha
      rw [hhist, halarm]
      exact h.queued a q (hqueues ▸ ha)
    · intro a ha hwhere
      rw [hhist]
      refine h.fresh a ha (Or.inl ?_)
      rw [hcons]
      rcases hwhere with hlisted | htransit
      · exact List.mem_cons_of_mem b (halarms ▸ hlisted)
      · obtain rfl : b = a := Option.some.inj (hx'.symm.trans htransit)
        exact List.mem_cons_self
  · obtain ⟨hper, ⟨stats, halarm⟩, hcb⟩ := hperiodic
    have hlisted : b ∈ s.mod.alarms := by simp [hcons]
    obtain ⟨halarms, hpurge⟩ := hcb (hw.callback_of_periodic b hper hlisted)
    have hothers : ∀ a, a ≠ b → s'.mod.alarm a = s.mod.alarm a := by
      intro a ha
      rw [halarm, Function.update_of_ne ha]
    refine ⟨?_, ?_⟩
    · intro a q ha
      have hne : a ≠ b := by
        rintro rfl
        exact hw'.transit_fresh a q hx' (hr'.home a q ha) ha
      rw [hhist, hothers a hne]
      exact h.queued a q ((hpurge.list_sublist q).mem ha)
    · intro a ha hwhere
      have hne : a ≠ b := by
        rintro rfl
        rw [hkind a, ha] at hper
        cases hper
      rw [hhist]
      refine h.fresh a ha (Or.inl ?_)
      rcases hwhere with hlisted' | htransit
      · rw [halarms, mem_inserted] at hlisted'
        rw [hcons]
        exact List.mem_cons_of_mem b
          (List.mem_of_mem_erase (hlisted'.resolve_left hne))
      · exact absurd (Option.some.inj (hx'.symm.trans htransit)).symm hne

theorem enqueue (h : Tracked isPeriodic s) (hw : Wellformed s.mod s.inTransit)
    (hkind : ∀ a, (s.mod.alarm a).isPeriodic = isPeriodic a) {b : AlarmPtr}
    (hm : s.mod.callbackDispatchEnqueue b = .ok s'.mod) (hx : s.inTransit = some b)
    (hx' : s'.inTransit = none)
    (hhist : s'.hist =
      s.hist ++ [.dispatch b (dispatchedDeadline (s'.mod.alarm b))]) :
    Tracked isPeriodic s' := by
  obtain ⟨halarm, halarms, q₀, _, _, hlist, _, hothers⟩ := callbackDispatchEnqueue_ok hm
  have hassigns : ∀ a, ¬ (Event.dispatch b
      (dispatchedDeadline (s'.mod.alarm b))).Assigns isPeriodic a := by
    rintro a (hfalse | hfalse | ⟨_, hfalse⟩) <;> exact hfalse
  refine ⟨?_, ?_⟩
  · intro a q ha
    by_cases hab : a = b
    · subst hab
      rw [hhist]
      refine ⟨s.hist.length, .concat_self (Or.inl rfl), ?_⟩
      intro n e he
      exact ((IsLast.concat_iff_of_not (hassigns a)).mp he).lt_length
    · have hold : a ∈ (s.mod.queues q).list := by
        by_cases hq : q = q₀
        · subst hq
          rw [hlist, List.mem_append, List.mem_singleton] at ha
          exact ha.resolve_right hab
        · exact hothers q hq ▸ ha
      refine h.queued_concat hhist hold ?_ (hassigns a) (by rw [halarm])
      rintro (hba | hfalse)
      · exact hab hba.symm
      · exact hfalse
  · intro a hsingle ha
    rw [hx'] at ha
    have hlisted : a ∈ s.mod.alarms := halarms ▸ ha.resolve_right (by simp)
    refine h.fresh_concat hhist hsingle (Or.inl hlisted) ?_ (hassigns a)
    intro hba
    obtain rfl : b = a := hba
    exact hw.transit_not_listed b ((hkind b).trans hsingle) hx hlisted

theorem dequeue (h : Tracked isPeriodic s) (hw : Wellformed s.mod s.inTransit)
    (hr : Represents s.mod s.inTransit)
    (hkind : ∀ a, (s.mod.alarm a).isPeriodic = isPeriodic a) {t : Tid}
    {q : QueuePtr} {i : Instance}
    (hm : s.mod.alarmQueueReady q = (s'.mod, some i)) (hx' : s'.inTransit = none)
    (hhist : s'.hist = s.hist ++ [.dequeue t q i]) : Tracked isPeriodic s' := by
  obtain ⟨⟨rest, hlist, hlist'⟩, _, halarm, halarms, _, hothers⟩ :=
    alarmQueueReady_some hm
  have hqueued : i.alarm ∈ (s.mod.queues q).list := by simp [hlist]
  have hassigns : ∀ a, a ≠ i.alarm →
      ¬ (Event.dequeue t q i).Assigns isPeriodic a := by
    rintro a ha (hfalse | hfalse | ⟨_, hia⟩)
    · exact hfalse
    · exact hfalse
    · exact ha hia.symm
  -- the dequeued alarm was once in this queue and never in another
  have hold : ∀ a q', a ∈ (s'.mod.queues q').list →
      a ∈ (s.mod.queues q').list ∧ a ≠ i.alarm := by
    intro a q' ha
    by_cases hq : q' = q
    · subst hq
      rw [hlist'] at ha
      refine ⟨by rw [hlist]; exact List.mem_cons_of_mem _ ha, ?_⟩
      rintro rfl
      have hnodup := hw.queue_nodup q'
      rw [hlist] at hnodup
      exact (List.nodup_cons.mp hnodup).1 ha
    · rw [hothers q' hq] at ha
      refine ⟨ha, ?_⟩
      rintro rfl
      exact hq (Option.some.inj ((hr.home _ _ ha).symm.trans (hr.home _ _ hqueued)))
  refine ⟨?_, ?_⟩
  · intro a q' ha
    obtain ⟨ha', hne⟩ := hold a q' ha
    refine h.queued_concat hhist ha' ?_ (hassigns a hne) ?_
    · rintro (hfalse | hia)
      · exact hfalse
      · exact hne hia.symm
    · rw [halarm, Function.update_of_ne hne]
  · intro a hsingle ha
    rw [hx'] at ha
    have hlisted : a ∈ s.mod.alarms := halarms ▸ ha.resolve_right (by simp)
    refine h.fresh_concat hhist hsingle (Or.inl hlisted) id (hassigns a ?_)
    rintro rfl
    exact hr.not_listed_of_queued hw ((hkind _).trans hsingle) hqueued hlisted

theorem congr (h : Tracked isPeriodic s) (hsame : SameAlarms s.mod s'.mod)
    (hx : s'.inTransit = s.inTransit) (hhist : s'.hist = s.hist) :
    Tracked isPeriodic s' := by
  refine ⟨?_, ?_⟩
  · intro a q ha
    obtain ⟨stats, hstats⟩ := hsame.alarm a
    rw [hhist, hstats]
    exact h.queued a q (hsame.queues ▸ ha)
  · intro a
    rw [hsame.alarms, hx, hhist]
    exact h.fresh a

theorem invoke (h : Tracked isPeriodic s) {t : Tid} {i : Instance} {t0 : PeriodMs}
    (hm : s'.mod = s.mod) (hx : s'.inTransit = s.inTransit)
    (hhist : s'.hist = s.hist ++ [.invoke t i t0]) : Tracked isPeriodic s' := by
  have hassigns : ∀ a, ¬ (Event.invoke t i t0).Assigns isPeriodic a := by
    rintro a (hfalse | hfalse | ⟨_, hfalse⟩) <;> exact hfalse
  refine ⟨?_, ?_⟩
  · intro a q ha
    rw [hm] at ha
    refine h.queued_concat hhist ha ?_ (hassigns a) (by rw [hm])
    rintro (hfalse | hfalse) <;> exact hfalse
  · intro a hsingle ha
    rw [hm, hx] at ha
    exact h.fresh_concat hhist hsingle ha id (hassigns a)

theorem step {home : AlarmPtr → QueuePtr} {l : Label} (h : Tracked isPeriodic s)
    (hs : Sound home s) (hs' : Sound home s')
    (hkind : ∀ a, (s.mod.alarm a).isPeriodic = isPeriodic a)
    (hok : NoStaleInstance s.mod l) (hprogress : System.Progress s l s') :
    Tracked isPeriodic s' := by
  cases hprogress with
  | set hm hx hx' _ hhist => exact h.set hs.wellformed hs.represents hok hm hx hx' hhist
  | cancel hm _ hx' _ hhist => exact h.cancel hs'.represents hm hx' hhist
  | dispatch hm _ hx' _ hhist =>
      exact h.dispatch hs.wellformed hs'.wellformed hs'.represents hkind hm hx' hhist
  | enqueue hm hx hx' _ hhist => exact h.enqueue hs.wellformed hkind hm hx hx' hhist
  | dequeue hm _ hx' _ _ hhist =>
      exact h.dequeue hs.wellformed hs.represents hkind hm hx' hhist
  | invoke hm hx _ _ hhist => exact h.invoke hm hx hhist
  | finish hm hx _ _ hhist => exact h.congr hm hx hhist
  | same hm hx _ hhist => exact h.congr hm hx hhist

end Tracked

theorem tracked_of_reachable {guard : System → Label → Prop}
    {home : AlarmPtr → QueuePtr}
    (hguard : ∀ s l, guard s l → System.OneQueue home s l)
    {isPeriodic : AlarmPtr → Bool} {capacity : QueuePtr → UInt64} {s : System}
    (h : Reachable (Guarded guard (Next System.step))
      (System.init isPeriodic capacity) s) : Tracked isPeriodic s := by
  refine h.induct (I := Tracked isPeriodic) ⟨?_, ?_⟩ ?_
  · intro a q ha
    exact absurd ha (by simp [System.init, AlarmState.init])
  · intro a _ _ n e he
    exact absurd he.get (by simp [System.init])
  · rintro s l s' hreach hs ⟨hg, hstep⟩
    have hsound := sound_of_reachable hguard hreach
    exact hs.step hsound (hsound.step (hguard s l hg) hstep)
      (isPeriodic_of_reachable hreach) (hsound.noStaleInstance (hguard s l hg))
      (System.step_progress hstep)

end Alarm

end Osi
