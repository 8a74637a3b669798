import Osi.Alarm.Tracking

/-!
# The order of the single-shot alarms

A queue, the alarm in the hands of the dispatcher and the list of alarms form a
pipeline: an alarm enters it somewhere in the list, moves forward as the
dispatcher takes the front of the list and appends it to the queue, and leaves
it at the front of the queue. In every pipeline the single-shot alarms are
ordered by their deadline and, for equal deadlines, by the position of their set
in the history. The insertion has to be stable for this, and an alarm that is set
while others wait in the queue must not have an earlier deadline than they.
-/

namespace Osi

namespace Alarm

open Transition AlarmState Collection

def Earlier (d : PeriodMs) (n : ℕ) (d' : PeriodMs) (n' : ℕ) : Prop :=
  d < d' ∨ (d = d' ∧ n < n')

theorem Earlier.of_le {d d' : PeriodMs} {n n' : ℕ} (hd : d ≤ d') (hn : n < n') :
    Earlier d n d' n' := by
  rcases UInt64.lt_or_eq_of_le hd with hlt | heq
  · exact Or.inl hlt
  · exact Or.inr ⟨heq, hn⟩

theorem Earlier.asymm {d d' : PeriodMs} {n n' : ℕ} (h : Earlier d n d' n') :
    ¬ Earlier d' n' d n := by
  rintro (hlt' | ⟨heq', hn'⟩)
  · rcases h with hlt | ⟨heq, _⟩
    · exact absurd (UInt64.lt_trans hlt hlt') (UInt64.lt_irrefl _)
    · exact absurd (heq ▸ hlt') (UInt64.lt_irrefl _)
  · rcases h with hlt | ⟨_, hn⟩
    · exact absurd (heq' ▸ hlt) (UInt64.lt_irrefl _)
    · omega

def Precedes (isPeriodic : AlarmPtr → Bool) (hist : List Event) (a b : AlarmPtr) :
    Prop :=
  ∀ n r t d n' r' t' d',
    IsLast (Event.Assigns isPeriodic a) hist n (.set r t d) →
    IsLast (Event.Assigns isPeriodic b) hist n' (.set r' t' d') → Earlier d n d' n'

theorem Precedes.concat {isPeriodic : AlarmPtr → Bool} {hist : List Event}
    {a b : AlarmPtr} {e : Event} (h : Precedes isPeriodic hist a b)
    (ha : ¬ e.Assigns isPeriodic a) (hb : ¬ e.Assigns isPeriodic b) :
    Precedes isPeriodic (hist ++ [e]) a b := by
  intro n r t d n' r' t' d' hset hset'
  rw [IsLast.concat_iff_of_not ha] at hset
  rw [IsLast.concat_iff_of_not hb] at hset'
  exact h n r t d n' r' t' d' hset hset'

namespace System

def pipeline (s : System) (q : QueuePtr) : List AlarmPtr :=
  (s.mod.queues q).list ++ (s.inTransit.toList ++ s.mod.alarms)

end System

def InOrder (isPeriodic : AlarmPtr → Bool) (s : System) : Prop :=
  ∀ q, ((s.pipeline q).filter fun a => !isPeriodic a).Pairwise
    (Precedes isPeriodic s.hist)

/-- A set never gives a deadline before the latest clock reading. -/
theorem clock_le_deadline_of_set {s : System} {r : SetArgs} {env : SetEnv}
    {m' : AlarmState} (hmono : System.ClockMonotone s (.set r env))
    (hfits : System.NoWrap s (.set r env))
    (hm : s.mod.alarmSetInternal r env = .ok m') :
    s.clock ≤ (m'.alarm r.alarm).deadline := by
  obtain ⟨⟨stats, halarm⟩, _⟩ := alarmSetInternal_ok hm
  have hnow : s.clock ≤ env.schedule.now :=
    (List.pairwise_cons.mp hmono).1 _ (by simp [Label.readings])
  rw [halarm, Function.update_self]
  exact UInt64.le_trans hnow (le_nextDeadline hfits)

namespace InOrder

variable {isPeriodic : AlarmPtr → Bool} {s s' : System}

/-- Alarms that only leave the pipelines, with one more event that assigns none
of the remaining ones. -/
theorem concat_of_sublist (h : InOrder isPeriodic s) {e : Event}
    (hhist : s'.hist = s.hist ++ [e])
    (hsub : ∀ q, ((s'.pipeline q).filter fun a => !isPeriodic a).Sublist
      ((s.pipeline q).filter fun a => !isPeriodic a))
    (hassigns : ∀ q, ∀ a ∈ s'.pipeline q, isPeriodic a = false →
      ¬ e.Assigns isPeriodic a) : InOrder isPeriodic s' := by
  intro q
  rw [hhist]
  refine ((h q).sublist (hsub q)).imp_of_mem ?_
  intro a b ha hb hab
  obtain ⟨ha', hsa⟩ := List.mem_filter.mp ha
  obtain ⟨hb', hsb⟩ := List.mem_filter.mp hb
  exact hab.concat (hassigns q a ha' (by simpa using hsa))
    (hassigns q b hb' (by simpa using hsb))

theorem of_sublist (h : InOrder isPeriodic s) (hhist : s'.hist = s.hist)
    (hsub : ∀ q, ((s'.pipeline q).filter fun a => !isPeriodic a).Sublist
      ((s.pipeline q).filter fun a => !isPeriodic a)) : InOrder isPeriodic s' := by
  intro q
  rw [hhist]
  exact (h q).sublist (hsub q)

theorem congr (h : InOrder isPeriodic s) (hsame : SameAlarms s.mod s'.mod)
    (hx : s'.inTransit = s.inTransit) (hhist : s'.hist = s.hist) :
    InOrder isPeriodic s' := by
  refine h.of_sublist hhist fun q => ?_
  unfold System.pipeline
  rw [hsame.queues, hsame.alarms, hx]

/-- An alarm that is set comes after all alarms that already wait in a queue. -/
theorem precedes_of_queued (hassigned : Assigned isPeriodic s)
    (htimely : Timely s.mod none s.clock)
    (hkind : ∀ a, (s.mod.alarm a).isPeriodic = isPeriodic a) {r : SetArgs}
    {t d : PeriodMs} {a : AlarmPtr} {q : QueuePtr} (ha : a ∈ (s.mod.queues q).list)
    (hsingle : isPeriodic a = false) (hne : a ≠ r.alarm) (hd : s.clock ≤ d) :
    Precedes isPeriodic (s.hist ++ [.set r t d]) a r.alarm := by
  intro n r₁ t₁ d₁ n' r' t' d' hset hset'
  have hself : (Event.set r t d).Assigns isPeriodic r.alarm := Or.inl rfl
  have hnot : ¬ (Event.set r t d).Assigns isPeriodic a := Event.not_assigns_set hne t d
  rw [IsLast.concat_iff_of_not hnot] at hset
  obtain ⟨rfl, heq⟩ := (IsLast.concat_iff_of hself).mp hset'
  obtain ⟨_, _, rfl⟩ := Event.set.inj heq
  obtain ⟨_, _, _, _, hdeadline⟩ := hassigned.agrees a n _ hset
  have hdue := (htimely.due a (Or.inr ⟨q, ha⟩)).2
  have hper := (hkind a).trans hsingle
  rw [dispatchedDeadline, if_neg (by simp [hper]), hdeadline hper] at hdue
  exact .of_le (UInt64.le_trans hdue hd) hset.lt_length

/-- An alarm that is set comes before the listed alarms with a greater
deadline, and after the others. -/
theorem precedes_of_listed (hassigned : Assigned isPeriodic s)
    (hkind : ∀ a, (s.mod.alarm a).isPeriodic = isPeriodic a) {r : SetArgs}
    {t d : PeriodMs} {a : AlarmPtr} (hsingle : isPeriodic a = false)
    (hne : a ≠ r.alarm) :
    (¬ d < (s.mod.alarm a).deadline →
      Precedes isPeriodic (s.hist ++ [.set r t d]) a r.alarm) ∧
    (d < (s.mod.alarm a).deadline →
      Precedes isPeriodic (s.hist ++ [.set r t d]) r.alarm a) := by
  have hself : (Event.set r t d).Assigns isPeriodic r.alarm := Or.inl rfl
  have hnot : ¬ (Event.set r t d).Assigns isPeriodic a := Event.not_assigns_set hne t d
  have hper := (hkind a).trans hsingle
  constructor
  · intro hle n r₁ t₁ d₁ n' r' t' d' hset hset'
    rw [IsLast.concat_iff_of_not hnot] at hset
    obtain ⟨rfl, heq⟩ := (IsLast.concat_iff_of hself).mp hset'
    obtain ⟨_, _, rfl⟩ := Event.set.inj heq
    obtain ⟨_, _, _, _, hdeadline⟩ := hassigned.agrees a n _ hset
    rw [hdeadline hper] at hle
    exact .of_le (UInt64.not_lt.mp hle) hset.lt_length
  · intro hlt n r' t' d' n₁ r₁ t₁ d₁ hset' hset
    rw [IsLast.concat_iff_of_not hnot] at hset
    obtain ⟨rfl, heq⟩ := (IsLast.concat_iff_of hself).mp hset'
    obtain ⟨_, _, rfl⟩ := Event.set.inj heq
    obtain ⟨_, _, _, _, hdeadline⟩ := hassigned.agrees a n₁ _ hset
    rw [hdeadline hper] at hlt
    exact Or.inl hlt

theorem set (h : InOrder isPeriodic s) (hw : Wellformed s.mod none)
    (hr : Represents s.mod none) (hassigned : Assigned isPeriodic s)
    (htimely : Timely s.mod none s.clock)
    (hkind : ∀ a, (s.mod.alarm a).isPeriodic = isPeriodic a) {r : SetArgs}
    {env : SetEnv} (hok : NoStaleInstance s.mod (.set r env))
    (hm : s.mod.alarmSetInternal r env = .ok s'.mod) (hx : s.inTransit = none)
    (hx' : s'.inTransit = none) (hclock : s.clock ≤ (s'.mod.alarm r.alarm).deadline)
    (hhist : s'.hist =
      s.hist ++ [.set r env.creationTime (s'.mod.alarm r.alarm).deadline]) :
    InOrder isPeriodic s' := by
  have hgone := (hr.not_mem_queues_iff hm).mpr hok
  obtain ⟨⟨stats, halarm⟩, halarms, hpurge⟩ := alarmSetInternal_ok hm
  have hassigns : ∀ a, a ≠ r.alarm → ¬ (Event.set r env.creationTime
      (s'.mod.alarm r.alarm).deadline).Assigns isPeriodic a :=
    fun a ha => Event.not_assigns_set ha _ _
  have herased : ∀ a ∈ s.mod.alarms.erase r.alarm, a ≠ r.alarm := by
    intro a ha
    exact (hw.nodup.mem_erase_iff.mp ha).1
  have hqueue : ∀ q, ∀ a ∈ (s'.mod.queues q).list, a ≠ r.alarm := by
    rintro q a ha rfl
    exact hgone q ha
  intro q
  have hold := h q
  rw [List.pairwise_filter, System.pipeline, hx, Option.toList_none, List.nil_append,
    List.pairwise_append] at hold
  obtain ⟨hold_queue, hold_list, hold_cross⟩ := hold
  rw [List.pairwise_filter, System.pipeline, hx', Option.toList_none, List.nil_append,
    List.pairwise_append, hhist]
  refine ⟨?_, ?_, ?_⟩
  · refine (hold_queue.sublist (hpurge.list_sublist q)).imp_of_mem ?_
    intro a b ha hb hab hsa hsb
    exact (hab hsa hsb).concat (hassigns a (hqueue q a ha)) (hassigns b (hqueue q b hb))
  · -- the list is kept sorted by all deadlines, so carry that along
    have hsorted : (s.mod.alarms.erase r.alarm).Pairwise fun a b =>
        (s'.mod.alarm a).deadline ≤ (s'.mod.alarm b).deadline ∧
          ((!isPeriodic a) = true → (!isPeriodic b) = true →
            Precedes isPeriodic (s.hist ++ [.set r env.creationTime
              (s'.mod.alarm r.alarm).deadline]) a b) := by
      refine ((hr.sorted.and hold_list).sublist List.erase_sublist).imp_of_mem ?_
      rintro a b ha hb ⟨hle, hab⟩
      have hane := herased a ha
      have hbne := herased b hb
      refine ⟨?_, fun hsa hsb =>
        (hab hsa hsb).concat (hassigns a hane) (hassigns b hbne)⟩
      rw [halarm, Function.update_of_ne hane, Function.update_of_ne hbne]
      exact hle
    have hothers : ∀ a ∈ s.mod.alarms.erase r.alarm, s'.mod.alarm a = s.mod.alarm a := by
      intro a ha
      rw [halarm, Function.update_of_ne (herased a ha)]
    have hinserted : (inserted s'.mod.alarm r.alarm
        (s.mod.alarms.erase r.alarm)).Pairwise fun a b =>
          (s'.mod.alarm a).deadline ≤ (s'.mod.alarm b).deadline ∧
            ((!isPeriodic a) = true → (!isPeriodic b) = true →
              Precedes isPeriodic (s.hist ++ [.set r env.creationTime
                (s'.mod.alarm r.alarm).deadline]) a b) := by
      apply Collection.pairwise_orderedInsert hsorted
      · intro a ha hnot
        refine ⟨UInt64.not_lt.mp hnot, fun hsa _ => ?_⟩
        rw [hothers a ha] at hnot
        exact (precedes_of_listed hassigned hkind (by simpa using hsa)
          (herased a ha)).1 hnot
      · intro a ha hlt
        refine ⟨UInt64.le_of_lt hlt, fun _ hsa => ?_⟩
        rw [hothers a ha] at hlt
        exact (precedes_of_listed hassigned hkind (by simpa using hsa)
          (herased a ha)).2 hlt
      · rintro a _ b _ ⟨hle, _⟩ hlt
        exact UInt64.lt_of_lt_of_le hlt hle
    rw [halarms]
    exact hinserted.imp fun hab => hab.2
  · intro a ha b hb hsa hsb
    have hane := hqueue q a ha
    have ha' := (hpurge.list_sublist q).mem ha
    rw [halarms, hw.mem_reinserted] at hb
    by_cases hbr : b = r.alarm
    · subst hbr
      exact precedes_of_queued hassigned htimely hkind ha' (by simpa using hsa)
        hane hclock
    · exact (hold_cross a ha' b (hb.resolve_left hbr) hsa hsb).concat
        (hassigns a hane) (hassigns b hbr)

theorem cancel (h : InOrder isPeriodic s) {b : AlarmPtr} {env : RescheduleEnv}
    (hr' : Represents s'.mod s'.inTransit) (hm : s'.mod = s.mod.alarmCancel b env)
    (hx : s.inTransit = none) (hx' : s'.inTransit = none)
    (hhist : s'.hist = s.hist ++ [.cancel b]) : InOrder isPeriodic s' := by
  obtain ⟨⟨stats, halarm⟩, halarms, hpurge⟩ := alarmCancel_spec s.mod b env
  rw [← hm] at halarm halarms hpurge
  have hgone : ¬ (s'.mod.alarm b).callback.isSome := by simp [halarm]
  rw [hr'.scheduled_iff b, not_or, not_or] at hgone
  refine h.concat_of_sublist hhist ?_ ?_
  · intro q
    apply List.Sublist.filter
    unfold System.pipeline
    rw [hx, hx', halarms]
    exact (hpurge.list_sublist q).append
      ((List.Sublist.refl _).append List.erase_sublist)
  · rintro q a ha _ (hfalse | hba | ⟨_, hfalse⟩)
    · exact hfalse
    · obtain rfl : b = a := hba
      rw [System.pipeline, hx', Option.toList_none, List.nil_append,
        List.mem_append] at ha
      rcases ha with ha | ha
      · exact hgone.2.1 ⟨q, ha⟩
      · exact hgone.1 ha
    · exact hfalse

theorem dispatch (h : InOrder isPeriodic s) (hw : Wellformed s.mod none)
    (hkind : ∀ a, (s.mod.alarm a).isPeriodic = isPeriodic a) {b : AlarmPtr}
    {env : DispatchEnv} (hm : s.mod.callbackDispatch env = .ok (s'.mod, some b))
    (hx : s.inTransit = none) (hx' : s'.inTransit = some b)
    (hhist : s'.hist = s.hist) : InOrder isPeriodic s' := by
  refine h.of_sublist hhist fun q => ?_
  obtain ⟨rest, hcons, _, hsingle | hperiodic⟩ := callbackDispatch_some hm
  · obtain ⟨_, _, halarms, hqueues⟩ := hsingle
    unfold System.pipeline
    rw [hx, hx', halarms, hqueues, hcons]
    exact List.Sublist.refl _
  · obtain ⟨hper, _, hcb⟩ := hperiodic
    obtain ⟨halarms, hpurge⟩ :=
      hcb (hw.callback_of_periodic b hper (by simp [hcons]))
    have hb : ¬ (!isPeriodic b) = true := by
      rw [← hkind b, hper]
      simp
    -- the periodic alarm does not show among the single-shot ones
    have hfilter : (s'.mod.alarms.filter fun a => !isPeriodic a) =
        (rest.erase b).filter fun a => !isPeriodic a := by
      rw [halarms, inserted]
      apply Collection.filter_orderedInsert_of_neg
      exact hb
    have hskip : ∀ l : List AlarmPtr, ((b :: l).filter fun a => !isPeriodic a) =
        l.filter fun a => !isPeriodic a := fun l => List.filter_cons_of_neg hb
    unfold System.pipeline
    rw [hx, hx', hcons]
    simp only [List.filter_append, hfilter, hskip, Option.toList_some,
      Option.toList_none, List.filter_nil, List.nil_append]
    exact ((hpurge.list_sublist q).filter _).append
      (List.erase_sublist.filter _)

theorem enqueue (h : InOrder isPeriodic s) {b : AlarmPtr}
    (hm : s.mod.callbackDispatchEnqueue b = .ok s'.mod) (hx : s.inTransit = some b)
    (hx' : s'.inTransit = none)
    (hhist : s'.hist =
      s.hist ++ [.dispatch b (dispatchedDeadline (s'.mod.alarm b))]) :
    InOrder isPeriodic s' := by
  obtain ⟨_, halarms, q₀, _, _, hlist, _, hothers⟩ := callbackDispatchEnqueue_ok hm
  refine h.concat_of_sublist hhist ?_ ?_
  · intro q
    apply List.Sublist.filter
    unfold System.pipeline
    rw [hx, hx', halarms]
    by_cases hq : q = q₀
    · subst hq
      rw [hlist]
      simp
    · rw [hothers q hq]
      simp
  · rintro q a _ _ (hfalse | hfalse | ⟨_, hfalse⟩) <;> exact hfalse

theorem dequeue (h : InOrder isPeriodic s)
    (hkind : ∀ a, (s.mod.alarm a).isPeriodic = isPeriodic a)
    (hr' : Represents s'.mod s'.inTransit) {t : Tid}
    {q : QueuePtr} {i : Instance}
    (hm : s.mod.alarmQueueReady q = (s'.mod, some i)) (hx : s.inTransit = none)
    (hx' : s'.inTransit = none) (hhist : s'.hist = s.hist ++ [.dequeue t q i]) :
    InOrder isPeriodic s' := by
  obtain ⟨⟨rest, hlist, hlist'⟩, _, halarm, halarms, _, hothers⟩ :=
    alarmQueueReady_some hm
  refine h.concat_of_sublist hhist ?_ ?_
  · intro q'
    apply List.Sublist.filter
    unfold System.pipeline
    rw [hx, hx', halarms]
    refine List.Sublist.append ?_ (List.Sublist.refl _)
    by_cases hq : q' = q
    · subst hq
      rw [hlist, hlist']
      exact List.sublist_cons_self _ _
    · rw [hothers q' hq]
  · rintro q' a ha hsingle (hfalse | hfalse | ⟨_, hia⟩)
    · exact hfalse
    · exact hfalse
    · -- the served single-shot alarm is nowhere any more
      obtain rfl : i.alarm = a := hia
      have hgone : ¬ (s'.mod.alarm i.alarm).callback.isSome := by
        simp [halarm, serviced, hkind, hsingle]
      rw [hr'.scheduled_iff, not_or, not_or] at hgone
      rw [System.pipeline, hx', Option.toList_none, List.nil_append,
        List.mem_append] at ha
      rcases ha with ha | ha
      · exact hgone.2.1 ⟨q', ha⟩
      · exact hgone.1 ha

theorem invoke (h : InOrder isPeriodic s) {t : Tid} {i : Instance} {t0 : PeriodMs}
    (hm : s'.mod = s.mod) (hx : s'.inTransit = s.inTransit)
    (hhist : s'.hist = s.hist ++ [.invoke t i t0]) : InOrder isPeriodic s' := by
  refine h.concat_of_sublist hhist ?_ ?_
  · intro q
    unfold System.pipeline
    rw [hm, hx]
  · rintro q a _ _ (hfalse | hfalse | ⟨_, hfalse⟩) <;> exact hfalse

theorem step {home : AlarmPtr → QueuePtr} {l : Label} (h : InOrder isPeriodic s)
    (hs : Sound home s) (hs' : Sound home s') (hassigned : Assigned isPeriodic s)
    (htimely : Timely s.mod s.inTransit s.clock)
    (hkind : ∀ a, (s.mod.alarm a).isPeriodic = isPeriodic a)
    (hok : NoStaleInstance s.mod l) (hmono : System.ClockMonotone s l)
    (hfits : System.NoWrap s l) (hprogress : System.Progress s l s') :
    InOrder isPeriodic s' := by
  have hw := hs.wellformed
  have hr := hs.represents
  cases hprogress with
  | set hm hx hx' _ hhist =>
      rw [hx] at hw hr htimely
      exact h.set hw hr hassigned htimely hkind hok hm hx hx'
        (clock_le_deadline_of_set hmono hfits hm) hhist
  | cancel hm hx hx' _ hhist => exact h.cancel hs'.represents hm hx hx' hhist
  | dispatch hm hx hx' _ hhist =>
      rw [hx] at hw
      exact h.dispatch hw hkind hm hx hx' hhist
  | enqueue hm hx hx' _ hhist => exact h.enqueue hm hx hx' hhist
  | dequeue hm hx hx' _ _ hhist =>
      exact h.dequeue hkind hs'.represents hm hx hx' hhist
  | invoke hm hx _ _ hhist => exact h.invoke hm hx hhist
  | finish hm hx _ _ hhist => exact h.congr hm hx hhist
  | same hm hx _ hhist => exact h.congr hm hx hhist

end InOrder

theorem inOrder_of_reachable {guard : System → Label → Prop}
    {home : AlarmPtr → QueuePtr}
    (hguard : ∀ s l, guard s l → System.Regular home s l)
    {isPeriodic : AlarmPtr → Bool} {capacity : QueuePtr → UInt64} {s : System}
    (h : Reachable (Guarded guard (Next System.step))
      (System.init isPeriodic capacity) s) : InOrder isPeriodic s := by
  have hone : ∀ s l, guard s l → System.OneQueue home s l :=
    fun s l hg => (hguard s l hg).1
  refine h.induct (I := InOrder isPeriodic) ?_ ?_
  · intro q
    simp [System.pipeline, System.init, System.inTransit, AlarmState.init]
  · rintro s l s' hreach hs ⟨hg, hstep⟩
    have hsound := sound_of_reachable hone hreach
    exact hs.step hsound (hsound.step (hone s l hg) hstep)
      (assigned_of_reachable hreach) (timely_of_reachable hguard hreach)
      (isPeriodic_of_reachable hreach) (hsound.noStaleInstance (hone s l hg))
      (hguard s l hg).2.1 (hguard s l hg).2.2 (System.step_progress hstep)

end Alarm

end Osi
