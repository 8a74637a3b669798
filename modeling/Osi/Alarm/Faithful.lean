import Osi.Alarm.Tracking

/-!
# Callbacks are faithful

Every call of a callback goes back through the history: to the dequeue by the
same thread, from there to the dispatch that put the alarm in its queue, and to
the set whose function and data are called. `Serves` names the four positions.
No set of a single-shot alarm and no dispatch of any alarm is served twice, and
the deadlines for which a periodic alarm is dispatched increase until the next
set.
-/

namespace Osi

namespace Alarm

open Transition AlarmState Collection

/-! ## The dispatched deadlines of a periodic alarm -/

/-- The alarm is not set after the position `p`. -/
def NoSetAfter (hist : List Event) (a : AlarmPtr) (p : ℕ) : Prop :=
  ∀ k e, p < k → hist[k]? = some e → ¬ e.Sets a

theorem NoSetAfter.of_concat {hist : List Event} {a : AlarmPtr} {p : ℕ} {e : Event}
    (h : NoSetAfter (hist ++ [e]) a p) : NoSetAfter hist a p :=
  fun k e' hk he' => h k e' hk (getElem?_concat_iff.mpr (Or.inl he'))

structure Rising (isPeriodic : AlarmPtr → Bool) (s : System) : Prop where
  listed : ∀ a, isPeriodic a = true → a ∈ s.mod.alarms → s.inTransit ≠ some a →
    ∀ p d, s.hist[p]? = some (.dispatch a d) → NoSetAfter s.hist a p →
      d < (s.mod.alarm a).deadline
  transit : ∀ a, isPeriodic a = true → s.inTransit = some a →
    ∀ p d, s.hist[p]? = some (.dispatch a d) → NoSetAfter s.hist a p →
      d < (s.mod.alarm a).prevDeadline
  ordered : ∀ a p p' d d', isPeriodic a = true → p < p' →
    s.hist[p]? = some (.dispatch a d) → s.hist[p']? = some (.dispatch a d') →
    NoSetAfter (s.hist.take p') a p → d < d'

namespace Rising

variable {isPeriodic : AlarmPtr → Bool} {s s' : System}

theorem congr (h : Rising isPeriodic s) (hsame : SameAlarms s.mod s'.mod)
    (hx : s'.inTransit = s.inTransit) (hhist : s'.hist = s.hist) :
    Rising isPeriodic s' := by
  refine ⟨?_, ?_, ?_⟩
  · intro a
    rw [hsame.alarms, hsame.deadline, hx, hhist]
    exact h.listed a
  · intro a
    obtain ⟨stats, hstats⟩ := hsame.alarm a
    rw [hx, hhist, hstats]
    exact h.transit a
  · rw [hhist]
    exact h.ordered

theorem concat (h : Rising isPeriodic s) {e : Event} (hhist : s'.hist = s.hist ++ [e])
    (hnot : ∀ a d, e ≠ .dispatch a d) (hx : s'.inTransit = s.inTransit)
    (hlisted : ∀ a, isPeriodic a = true → a ∈ s'.mod.alarms → e.Sets a ∨
      (a ∈ s.mod.alarms ∧ (s'.mod.alarm a).deadline = (s.mod.alarm a).deadline))
    (htransit : ∀ a, s'.inTransit = some a →
      (s'.mod.alarm a).prevDeadline = (s.mod.alarm a).prevDeadline) :
    Rising isPeriodic s' := by
  have hold : ∀ (a : AlarmPtr) (p : ℕ) (d : PeriodMs),
      s'.hist[p]? = some (Event.dispatch a d) →
      s.hist[p]? = some (Event.dispatch a d) := by
    intro a p d hp
    rw [hhist] at hp
    exact (getElem?_concat_iff.mp hp).resolve_right fun heq => hnot a d heq.2
  refine ⟨?_, ?_, ?_⟩
  · intro a hper ha hxa p d hp hset
    have hp' := hold a p d hp
    rw [hhist] at hset
    rcases hlisted a hper ha with hsets | ⟨ha', hd⟩
    · exact absurd hsets
        (hset s.hist.length e (lt_length_of_getElem? hp') (by simp))
    · rw [hd]
      exact h.listed a hper ha' (hx ▸ hxa) p d hp' hset.of_concat
  · intro a hper hxa p d hp hset
    rw [hhist] at hset
    rw [htransit a hxa]
    exact h.transit a hper (hx ▸ hxa) p d (hold a p d hp) hset.of_concat
  · intro a p p' d d' hper hlt hp hp' hset
    have hp₁ := hold a p' d' hp'
    rw [hhist, take_concat (lt_length_of_getElem? hp₁).le] at hset
    exact h.ordered a p p' d d' hper hlt (hold a p d hp) hp₁ hset

theorem dispatch (h : Rising isPeriodic s) (hw : Wellformed s.mod s.inTransit)
    (hkind : ∀ a, (s.mod.alarm a).isPeriodic = isPeriodic a)
    {b : AlarmPtr} {env : DispatchEnv}
    (hm : s.mod.callbackDispatch env = .ok (s'.mod, some b)) (hx : s.inTransit = none)
    (hx' : s'.inTransit = some b) (hhist : s'.hist = s.hist) :
    Rising isPeriodic s' := by
  have hnone : ∀ a, s.inTransit ≠ some a := by simp [hx]
  obtain ⟨rest, hcons, _, hsingle | hperiodic⟩ := callbackDispatch_some hm
  · obtain ⟨hper, halarm, halarms, _⟩ := hsingle
    refine ⟨?_, ?_, ?_⟩
    · intro a hpa ha _
      rw [hhist, halarm]
      refine h.listed a hpa ?_ (hnone a)
      rw [hcons]
      exact List.mem_cons_of_mem b (halarms ▸ ha)
    · intro a hpa hxa
      obtain rfl : b = a := Option.some.inj (hx'.symm.trans hxa)
      rw [hkind, hpa] at hper
      cases hper
    · rw [hhist]
      exact h.ordered
  · obtain ⟨hper, ⟨stats, halarm⟩, hcb⟩ := hperiodic
    have hlisted : b ∈ s.mod.alarms := by simp [hcons]
    obtain ⟨halarms, _⟩ := hcb (hw.callback_of_periodic b hper hlisted)
    refine ⟨?_, ?_, ?_⟩
    · intro a hpa ha hxa
      have hne : a ≠ b := by
        rintro rfl
        exact hxa hx'
      rw [hhist, halarm, Function.update_of_ne hne]
      refine h.listed a hpa ?_ (hnone a)
      rw [halarms, mem_inserted] at ha
      rw [hcons]
      exact List.mem_cons_of_mem b (List.mem_of_mem_erase (ha.resolve_left hne))
    · intro a hpa hxa
      obtain rfl : b = a := Option.some.inj (hx'.symm.trans hxa)
      rw [hhist, halarm, Function.update_self]
      exact h.listed b hpa hlisted (hnone b)
    · rw [hhist]
      exact h.ordered

theorem enqueue (h : Rising isPeriodic s) {clock : PeriodMs}
    (ht : Timely s.mod s.inTransit clock)
    (hkind : ∀ a, (s.mod.alarm a).isPeriodic = isPeriodic a) {b : AlarmPtr}
    (hm : s.mod.callbackDispatchEnqueue b = .ok s'.mod) (hx : s.inTransit = some b)
    (hx' : s'.inTransit = none)
    (hhist : s'.hist =
      s.hist ++ [.dispatch b (dispatchedDeadline (s'.mod.alarm b))]) :
    Rising isPeriodic s' := by
  obtain ⟨halarm, halarms, _⟩ := callbackDispatchEnqueue_ok hm
  have hprev : isPeriodic b = true →
      dispatchedDeadline (s'.mod.alarm b) = (s.mod.alarm b).prevDeadline := by
    intro hper
    rw [halarm, dispatchedDeadline, if_pos ((hkind b).trans hper)]
  refine ⟨?_, ?_, ?_⟩
  · intro a hper ha _ p d hp hset
    rw [hhist] at hp hset
    rw [halarm]
    by_cases hab : a = b
    · subst hab
      have hnext := ht.next a ((hkind a).trans hper) hx
      rcases getElem?_concat_iff.mp hp with hp | ⟨_, heq⟩
      · exact UInt64.lt_trans (h.transit a hper hx p d hp hset.of_concat) hnext
      · obtain rfl : dispatchedDeadline (s'.mod.alarm a) = d := by
          simpa using heq
        rw [hprev hper]
        exact hnext
    · rcases getElem?_concat_iff.mp hp with hp | ⟨_, heq⟩
      · refine h.listed a hper (halarms ▸ ha) ?_ p d hp hset.of_concat
        rw [hx]
        exact fun hba => hab (Option.some.inj hba).symm
      · exact absurd (Event.dispatch.inj heq).1.symm hab
  · intro a _ hxa
    rw [hx'] at hxa
    cases hxa
  · intro a p p' d d' hper hlt hp hp' hset
    rw [hhist] at hp hp' hset
    rcases getElem?_concat_iff.mp hp' with hp' | ⟨rfl, heq⟩
    · have hlen := lt_length_of_getElem? hp'
      rw [take_concat hlen.le] at hset
      have hp₁ := (getElem?_concat_iff.mp hp).resolve_right fun h => by omega
      exact h.ordered a p p' d d' hper hlt hp₁ hp' hset
    · obtain ⟨rfl, rfl⟩ := Event.dispatch.inj heq
      rw [take_concat le_rfl, List.take_length] at hset
      have hp₁ := (getElem?_concat_iff.mp hp).resolve_right fun h => by omega
      rw [hprev hper]
      exact h.transit b hper hx p d hp₁ hset

theorem step {home : AlarmPtr → QueuePtr} {l : Label} {clock : PeriodMs}
    (h : Rising isPeriodic s) (hs : Sound home s)
    (ht : Timely s.mod s.inTransit clock)
    (hkind : ∀ a, (s.mod.alarm a).isPeriodic = isPeriodic a)
    (hprogress : System.Progress s l s') : Rising isPeriodic s' := by
  have hw := hs.wellformed
  have hr := hs.represents
  cases hprogress with
  | @set _ r env hm hx hx' _ hhist =>
      obtain ⟨⟨stats, halarm⟩, halarms, _⟩ := alarmSetInternal_ok hm
      refine h.concat hhist (by simp) (hx'.trans hx.symm) ?_ (by simp [hx'])
      intro a _ ha
      rw [halarms, hw.mem_reinserted] at ha
      by_cases har : a = r.alarm
      · exact Or.inl har.symm
      · refine Or.inr ⟨ha.resolve_left har, ?_⟩
        rw [halarm, Function.update_of_ne har]
  | @cancel _ b env hm hx hx' _ hhist =>
      obtain ⟨⟨stats, halarm⟩, halarms, _⟩ := alarmCancel_spec s.mod b env
      rw [← hm] at halarm halarms
      refine h.concat hhist (by simp) (hx'.trans hx.symm) ?_ (by simp [hx'])
      intro a _ ha
      rw [halarms, hw.nodup.mem_erase_iff] at ha
      refine Or.inr ⟨ha.2, ?_⟩
      rw [halarm, Function.update_of_ne ha.1]
  | dispatch hm hx hx' _ hhist => exact h.dispatch hw hkind hm hx hx' hhist
  | enqueue hm hx hx' _ hhist => exact h.enqueue ht hkind hm hx hx' hhist
  | dequeue hm hx hx' _ _ hhist =>
      have halarms := (alarmQueueReady_some hm).2.2.2.1
      refine h.concat hhist (by simp) (hx'.trans hx.symm) ?_ (by simp [hx'])
      intro a _ ha
      rw [halarms] at ha
      exact Or.inr ⟨ha, hr.dequeue_deadline hw hm ha⟩
  | invoke hm hx _ _ hhist =>
      refine h.concat hhist (by simp) hx ?_ fun a _ => by rw [hm]
      intro a _ ha
      rw [hm] at ha ⊢
      exact Or.inr ⟨ha, rfl⟩
  | finish hm hx _ _ hhist => exact h.congr hm hx hhist
  | same hm hx _ hhist => exact h.congr hm hx hhist

end Rising

/-! ## From the call back to the set -/

/-- What the dequeue at the position `j` took: the instance that the dispatch at
`p` has put in the queue, of the alarm as the set at `n` has left it. -/
structure Origin (isPeriodic : AlarmPtr → Bool) (hist : List Event) (n p j : ℕ)
    (r : SetArgs) (t0 d : PeriodMs) (i : Instance) : Prop where
  set : IsLast (Event.Assigns isPeriodic i.alarm) (hist.take j) n (.set r t0 d)
  dispatch : IsLast (Event.Moves i.alarm) (hist.take j) p (.dispatch i.alarm i.deadline)
  lt : n < p
  callback : i.callback = some r.cb
  data : i.data = r.data
  time : t0.toNat + r.intervalMs.toNat ≤ i.deadline.toNat

theorem Origin.concat {isPeriodic : AlarmPtr → Bool} {hist : List Event} {n p j : ℕ}
    {r : SetArgs} {t0 d : PeriodMs} {i : Instance} {e : Event}
    (h : Origin isPeriodic hist n p j r t0 d i) (hj : j ≤ hist.length) :
    Origin isPeriodic (hist ++ [e]) n p j r t0 d i where
  set := by
    rw [take_concat hj]
    exact h.set
  dispatch := by
    rw [take_concat hj]
    exact h.dispatch
  lt := h.lt
  callback := h.callback
  data := h.data
  time := h.time

structure Consumers (isPeriodic : AlarmPtr → Bool) (s : System) : Prop where
  ready : ∀ t i, s.consumer t = .ready i → ∃ j q,
    IsLast (Event.OfThread t) s.hist j (.dequeue t q i)
  dequeued : ∀ j t q i, s.hist[j]? = some (.dequeue t q i) →
    (∃ n p r t0 d, Origin isPeriodic s.hist n p j r t0 d i) ∧ i.deadline ≤ s.clock
  invoked : ∀ k t i t0, s.hist[k]? = some (.invoke t i t0) → ∃ j q,
    IsLast (Event.OfThread t) (s.hist.take k) j (.dequeue t q i) ∧ i.deadline ≤ t0

namespace Consumers

variable {isPeriodic : AlarmPtr → Bool} {s s' : System}

theorem congr (h : Consumers isPeriodic s) (hhist : s'.hist = s.hist)
    (hconsumer : ∀ t i, s'.consumer t = .ready i → s.consumer t = .ready i)
    (hclock : s.clock ≤ s'.clock) : Consumers isPeriodic s' := by
  refine ⟨?_, ?_, ?_⟩
  · intro t i ht
    rw [hhist]
    exact h.ready t i (hconsumer t i ht)
  · intro j t q i hj
    rw [hhist] at hj ⊢
    obtain ⟨horigin, hdue⟩ := h.dequeued j t q i hj
    exact ⟨horigin, UInt64.le_trans hdue hclock⟩
  · rw [hhist]
    exact h.invoked

/-- One more event. What is new about it is left to the hypotheses. -/
theorem concat (h : Consumers isPeriodic s) {e : Event}
    (hhist : s'.hist = s.hist ++ [e]) (hclock : s.clock ≤ s'.clock)
    (hready : ∀ t i, s'.consumer t = .ready i →
      (s.consumer t = .ready i ∧ ¬ e.OfThread t) ∨ ∃ q, e = .dequeue t q i)
    (hdequeue : ∀ t q i, e = .dequeue t q i →
      (∃ n p r t0 d, Origin isPeriodic s'.hist n p s.hist.length r t0 d i) ∧
        i.deadline ≤ s'.clock)
    (hinvoke : ∀ t i t0, e = .invoke t i t0 →
      s.consumer t = .ready i ∧ s.clock ≤ t0) : Consumers isPeriodic s' := by
  refine ⟨?_, ?_, ?_⟩
  · intro t i ht
    rw [hhist]
    rcases hready t i ht with ⟨hold, hnot⟩ | ⟨q, rfl⟩
    · obtain ⟨j, q, hj⟩ := h.ready t i hold
      exact ⟨j, q, (IsLast.concat_iff_of_not hnot).mpr hj⟩
    · exact ⟨s.hist.length, q, .concat_self rfl⟩
  · intro j t q i hj
    rw [hhist] at hj
    rcases getElem?_concat_iff.mp hj with hj | ⟨rfl, rfl⟩
    · obtain ⟨⟨n, p, r, t0, d, horigin⟩, hdue⟩ := h.dequeued j t q i hj
      rw [hhist]
      exact ⟨⟨n, p, r, t0, d, horigin.concat (lt_length_of_getElem? hj).le⟩,
        UInt64.le_trans hdue hclock⟩
    · exact hdequeue t q i rfl
  · intro k t i t0 hk
    rw [hhist] at hk ⊢
    rcases getElem?_concat_iff.mp hk with hk | ⟨rfl, rfl⟩
    · rw [take_concat (lt_length_of_getElem? hk).le]
      exact h.invoked k t i t0 hk
    · obtain ⟨hi, hle⟩ := hinvoke t i t0 rfl
      obtain ⟨j, q, hj⟩ := h.ready t i hi
      rw [take_concat le_rfl, List.take_length]
      exact ⟨j, q, hj, UInt64.le_trans (h.dequeued j t q i hj.get).2 hle⟩

/-- The dequeue itself: the history and the alarm agree about the instance. -/
theorem origin_of_dequeue (hs : Represents s.mod s.inTransit)
    (hassigned : Assigned isPeriodic s) (htracked : Tracked isPeriodic s)
    (htimely : Timely s.mod s.inTransit s.clock) {t : Tid} {q : QueuePtr}
    {i : Instance} (hm : s.mod.alarmQueueReady q = (s'.mod, some i))
    (hhist : s'.hist = s.hist ++ [.dequeue t q i]) :
    (∃ n p r t0 d, Origin isPeriodic s'.hist n p s.hist.length r t0 d i) ∧
      i.deadline ≤ s.clock := by
  obtain ⟨⟨rest, hlist, _⟩, hi, _⟩ := alarmQueueReady_some hm
  have hqueued : i.alarm ∈ (s.mod.queues q).list := by simp [hlist]
  have hcallback : i.callback = (s.mod.alarm i.alarm).callback :=
    congrArg Instance.callback hi
  have hdata : i.data = (s.mod.alarm i.alarm).data := congrArg Instance.data hi
  have hdeadline : i.deadline = dispatchedDeadline (s.mod.alarm i.alarm) :=
    congrArg Instance.deadline hi
  obtain ⟨n, r, t0, d, hset⟩ := hassigned.armed _ (hs.callback_of_queued hqueued)
  obtain ⟨hcb, hdat, hct, hper, _⟩ := hassigned.agrees _ _ _ hset
  obtain ⟨p, hp, hlt⟩ := htracked.queued _ q hqueued
  obtain ⟨hearly, hdue⟩ := htimely.due _ (Or.inr ⟨q, hqueued⟩)
  rw [NotEarly, hct, hper, ← hdeadline] at hearly
  rw [← hdeadline] at hp hdue
  have htake : s'.hist.take s.hist.length = s.hist := by
    rw [hhist, take_concat le_rfl, List.take_length]
  exact ⟨⟨n, p, r, t0, d, htake.symm ▸ hset, htake.symm ▸ hp, hlt n _ hset,
    hcallback.trans hcb, hdata.trans hdat, hearly⟩, hdue⟩

theorem step {home : AlarmPtr → QueuePtr} {l : Label} (h : Consumers isPeriodic s)
    (hs : Sound home s) (hassigned : Assigned isPeriodic s)
    (htracked : Tracked isPeriodic s) (htimely : Timely s.mod s.inTransit s.clock)
    (hmono : System.ClockMonotone s l) (hclock : s.clock ≤ s'.clock)
    (hprogress : System.Progress s l s') : Consumers isPeriodic s' := by
  have hsame : ∀ {e : Event}, s'.consumer = s.consumer → (∀ t, ¬ e.OfThread t) →
      ∀ t i, s'.consumer t = .ready i →
        (s.consumer t = .ready i ∧ ¬ e.OfThread t) ∨ ∃ q, e = .dequeue t q i := by
    intro e hconsumer hnot t i ht
    exact Or.inl ⟨hconsumer ▸ ht, hnot t⟩
  cases hprogress with
  | set _ _ _ hconsumer hhist =>
      exact h.concat hhist hclock (hsame hconsumer fun _ => id) (by simp) (by simp)
  | cancel _ _ _ hconsumer hhist =>
      exact h.concat hhist hclock (hsame hconsumer fun _ => id) (by simp) (by simp)
  | dispatch _ _ _ hconsumer hhist =>
      exact h.congr hhist (fun t i => by rw [hconsumer]; exact id) hclock
  | enqueue _ _ _ hconsumer hhist =>
      exact h.concat hhist hclock (hsame hconsumer fun _ => id) (by simp) (by simp)
  | @dequeue _ t q i hm _ _ hidle hconsumer hhist =>
      obtain ⟨horigin, hdue⟩ :=
        origin_of_dequeue hs.represents hassigned htracked htimely hm hhist
      refine h.concat hhist hclock ?_ ?_ (by simp)
      · intro t' i' ht'
        rw [hconsumer] at ht'
        by_cases htt : t' = t
        · subst htt
          rw [Function.update_self] at ht'
          exact Or.inr ⟨q, by rw [ConsumerPhase.ready.inj ht']⟩
        · rw [Function.update_of_ne htt] at ht'
          exact Or.inl ⟨ht', fun heq => htt heq.symm⟩
      · rintro t' q' i' heq
        obtain ⟨rfl, rfl, rfl⟩ := Event.dequeue.inj heq
        exact ⟨horigin, UInt64.le_trans hdue hclock⟩
  | @invoke _ t t0 i _ _ hready hconsumer hhist =>
      refine h.concat hhist hclock ?_ (by simp) ?_
      · intro t' i' ht'
        rw [hconsumer] at ht'
        by_cases htt : t' = t
        · subst htt
          rw [Function.update_self] at ht'
          cases ht'
        · rw [Function.update_of_ne htt] at ht'
          exact Or.inl ⟨ht', fun heq => htt heq.symm⟩
      · rintro t' i' t0' heq
        obtain ⟨rfl, rfl, rfl⟩ := Event.invoke.inj heq
        exact ⟨hready, (List.pairwise_cons.mp hmono).1 t0 (by simp [Label.readings])⟩
  | @finish _ t _ _ _ _ _ _ hconsumer hhist =>
      refine h.congr hhist ?_ hclock
      intro t' i' ht'
      rw [hconsumer] at ht'
      by_cases htt : t' = t
      · subst htt
        rw [Function.update_self] at ht'
        cases ht'
      · rwa [Function.update_of_ne htt] at ht'
  | same _ _ hconsumer hhist =>
      exact h.congr hhist (fun t i => by rw [hconsumer]; exact id) hclock

end Consumers

section Reachable

variable {guard : System → Label → Prop} {home : AlarmPtr → QueuePtr}
  (hguard : ∀ s l, guard s l → System.Regular home s l)
  {isPeriodic : AlarmPtr → Bool} {capacity : QueuePtr → UInt64} {s : System}
  (h : Reachable (Guarded guard (Next System.step))
    (System.init isPeriodic capacity) s)

include hguard h

theorem rising_of_reachable : Rising isPeriodic s := by
  refine h.induct (I := Rising isPeriodic) ⟨?_, ?_, ?_⟩ ?_
  · intro a _ ha
    exact absurd ha (by simp [System.init, AlarmState.init])
  · intro a _ hx
    exact absurd hx (by simp [System.init, System.inTransit])
  · intro a p p' d d' _ _ hp
    exact absurd hp (by simp [System.init])
  · rintro s l s' hreach hs ⟨_, hstep⟩
    exact hs.step (sound_of_reachable (fun s l hg => (hguard s l hg).1) hreach)
      (timely_of_reachable hguard hreach) (isPeriodic_of_reachable hreach)
      (System.step_progress hstep)

theorem consumers_of_reachable : Consumers isPeriodic s := by
  refine h.induct (I := Consumers isPeriodic) ⟨?_, ?_, ?_⟩ ?_
  · intro t i ht
    exact absurd ht (by simp [System.init])
  · intro j t q i hj
    exact absurd hj (by simp [System.init])
  · intro k t i t0 hk
    exact absurd hk (by simp [System.init])
  · rintro s l s' hreach hs ⟨hg, hstep⟩
    have hone : ∀ s l, guard s l → System.OneQueue home s l :=
      fun s l hg => (hguard s l hg).1
    have hmono := (hguard s l hg).2.1
    have hclock : s.clock ≤ s'.clock := by
      rw [System.step_clock hstep]
      exact System.le_tick hmono (Or.inl rfl)
    exact hs.step (sound_of_reachable hone hreach) (assigned_of_reachable hreach)
      (tracked_of_reachable hone hreach) (timely_of_reachable hguard hreach) hmono
      hclock (System.step_progress hstep)

end Reachable

/-- The call of a callback at the position `k` serves the set of `a` at `n`,
through the dispatch at `p` and the dequeue at `j`: between `j` and `k` the
thread does nothing else for the alarms; between `p` and `j` no instance of the
alarm moves; between `n` and `j` nothing assigns the alarm, so there is no
further set, no cancel, and for a single-shot alarm no dequeue. The call uses the
function and the data of the set, not before its time plus its interval. -/
def Serves (isPeriodic : AlarmPtr → Bool) (hist : List Event) (a : AlarmPtr)
    (n p j k : ℕ) : Prop :=
  ∃ r t0 d t q i τ, i.alarm = a ∧ n < p ∧
    hist[k]? = some (.invoke t i τ) ∧
    IsLast (Event.OfThread t) (hist.take k) j (.dequeue t q i) ∧
    IsLast (Event.Moves a) (hist.take j) p (.dispatch a i.deadline) ∧
    IsLast (Event.Assigns isPeriodic a) (hist.take j) n (.set r t0 d) ∧
    i.callback = some r.cb ∧ i.data = r.data ∧
    t0.toNat + r.intervalMs.toNat ≤ τ.toNat

namespace Serves

variable {isPeriodic : AlarmPtr → Bool} {hist : List Event} {a : AlarmPtr}
  {n n' p p' j j' k k' : ℕ}

/-- The call is the first one of its thread after the dequeue. -/
theorem le_of_dequeue (h : Serves isPeriodic hist a n p j k)
    (h' : Serves isPeriodic hist a n' p' j k') : k' ≤ k := by
  obtain ⟨_, _, _, t, q, i, _, _, _, hk, hj, _⟩ := h
  obtain ⟨_, _, _, t', q', i', _, _, _, _, hj', _⟩ := h'
  obtain ⟨hget, _⟩ := getElem?_take_iff.mp hj.get
  obtain ⟨hget', _⟩ := getElem?_take_iff.mp hj'.get
  obtain ⟨rfl, _, _⟩ := Event.dequeue.inj (Option.some.inj (hget.symm.trans hget'))
  have hlt : j < k := (getElem?_take_iff.mp hj.get).2
  by_contra hkk
  have hle := hj'.le_of_getElem? (getElem?_take_iff.mpr ⟨hk, by omega⟩) rfl
  omega

theorem eq_of_dequeue (h : Serves isPeriodic hist a n p j k)
    (h' : Serves isPeriodic hist a n' p' j k') : k = k' :=
  le_antisymm (h'.le_of_dequeue h) (h.le_of_dequeue h')

theorem dequeue_le_of_dispatch (h : Serves isPeriodic hist a n p j k)
    (h' : Serves isPeriodic hist a n' p j' k') : j ≤ j' := by
  obtain ⟨_, _, _, _, _, i, _, rfl, _, _, hj, hp, _⟩ := h
  obtain ⟨_, _, _, _, _, i', _, hi', _, _, hj', hp', _⟩ := h'
  obtain ⟨hget', _⟩ := getElem?_take_iff.mp hj'.get
  have hlt : p < j' := (getElem?_take_iff.mp hp'.get).2
  by_contra hjj
  have hle := hp.le_of_getElem? (getElem?_take_iff.mpr ⟨hget', by omega⟩)
    (Or.inr hi')
  omega

theorem dequeue_le_of_set (hsingle : isPeriodic a = false)
    (h : Serves isPeriodic hist a n p j k)
    (h' : Serves isPeriodic hist a n p' j' k') : j ≤ j' := by
  obtain ⟨_, _, _, _, _, i, _, rfl, _, _, hj, _, hn, _⟩ := h
  obtain ⟨_, _, _, _, _, i', _, hi', _, _, hj', _, hn', _⟩ := h'
  obtain ⟨hget', _⟩ := getElem?_take_iff.mp hj'.get
  have hlt : n < j' := (getElem?_take_iff.mp hn'.get).2
  by_contra hjj
  have hle := hn.le_of_getElem? (getElem?_take_iff.mpr ⟨hget', by omega⟩)
    (Or.inr (Or.inr ⟨hsingle, hi'⟩))
  omega

theorem dequeue (h : Serves isPeriodic hist a n p j k) :
    ∃ (t : Tid) (q : QueuePtr) (i : Instance), i.alarm = a ∧
      hist[j]? = some (Event.dequeue t q i) ∧ n < j ∧ j < k := by
  obtain ⟨_, _, _, t, q, i, _, hi, hnp, _, hj, hp, _⟩ := h
  obtain ⟨hget, hjk⟩ := getElem?_take_iff.mp hj.get
  obtain ⟨_, hpj⟩ := getElem?_take_iff.mp hp.get
  exact ⟨t, q, i, hi, hget, hnp.trans hpj, hjk⟩

/-- No other dequeue of the thread comes between. -/
theorem le_dequeue (h : Serves isPeriodic hist a n p j k) {t : Tid} {i i₁ : Instance}
    {τ : PeriodMs} {q : QueuePtr} {j₁ : ℕ}
    (hk : hist[k]? = some (Event.invoke t i τ))
    (hj₁ : hist[j₁]? = some (Event.dequeue t q i₁)) (hlt : j₁ < k) : j₁ ≤ j := by
  obtain ⟨_, _, _, t', _, _, _, _, _, hk', hj, _⟩ := h
  obtain ⟨rfl, _, _⟩ := Event.invoke.inj (Option.some.inj (hk.symm.trans hk'))
  exact hj.le_of_getElem? (getElem?_take_iff.mpr ⟨hj₁, hlt⟩) rfl

end Serves

theorem Consumers.serves {isPeriodic : AlarmPtr → Bool} {s : System}
    (h : Consumers isPeriodic s) {k : ℕ} {t : Tid} {i : Instance} {τ : PeriodMs}
    (hk : s.hist[k]? = some (Event.invoke t i τ)) :
    ∃ n p j, Serves isPeriodic s.hist i.alarm n p j k := by
  obtain ⟨j, q, hj, hle⟩ := h.invoked k t i τ hk
  obtain ⟨⟨n, p, r, t0, d, horigin⟩, _⟩ :=
    h.dequeued j t q i (getElem?_take_iff.mp hj.get).1
  refine ⟨n, p, j, r, t0, d, t, q, i, τ, rfl, horigin.lt, hk, hj, horigin.dispatch,
    horigin.set, horigin.callback, horigin.data, ?_⟩
  exact horigin.time.trans (UInt64.le_iff_toNat_le.mp hle)

/-- In every run with a non-decreasing clock, one queue for each alarm and
deadlines that do not wrap: every call of a callback serves a set; a set of a
single-shot alarm is served at most once; a dispatch is served at most once; and
the deadlines for which a periodic alarm is dispatched increase strictly until
it is set again. -/
theorem callback_faithfulness (isPeriodic : AlarmPtr → Bool)
    (capacity : QueuePtr → UInt64) (home : AlarmPtr → QueuePtr) (s : System)
    (h : Reachable (Guarded (System.Regular home) (Next System.step))
      (System.init isPeriodic capacity) s) :
    (∀ k t i τ, s.hist[k]? = some (.invoke t i τ) →
      ∃ n p j, Serves isPeriodic s.hist i.alarm n p j k) ∧
    (∀ a n p p' j j' k k', isPeriodic a = false →
      Serves isPeriodic s.hist a n p j k → Serves isPeriodic s.hist a n p' j' k' →
      k = k') ∧
    (∀ a n n' p j j' k k',
      Serves isPeriodic s.hist a n p j k → Serves isPeriodic s.hist a n' p j' k' →
      k = k') ∧
    (∀ (a : AlarmPtr) (p p' : ℕ) (d d' : PeriodMs), isPeriodic a = true → p < p' →
      s.hist[p]? = some (Event.dispatch a d) →
      s.hist[p']? = some (Event.dispatch a d') →
      (∀ (m : ℕ) (e : Event), p < m → m < p' → s.hist[m]? = some e → ¬ e.Sets a) →
      d < d') := by
  have hconsumers := consumers_of_reachable (fun _ _ hg => hg) h
  have hrising := rising_of_reachable (fun _ _ hg => hg) h
  refine ⟨?_, ?_, ?_, ?_⟩
  · intro k t i τ hk
    exact hconsumers.serves hk
  · intro a n p p' j j' k k' hsingle hserves hserves'
    obtain rfl : j = j' := le_antisymm (hserves.dequeue_le_of_set hsingle hserves')
      (hserves'.dequeue_le_of_set hsingle hserves)
    exact hserves.eq_of_dequeue hserves'
  · intro a n n' p j j' k k' hserves hserves'
    obtain rfl : j = j' := le_antisymm (hserves.dequeue_le_of_dispatch hserves')
      (hserves'.dequeue_le_of_dispatch hserves)
    exact hserves.eq_of_dequeue hserves'
  · intro a p p' d d' hper hlt hp hp' hset
    refine hrising.ordered a p p' d d' hper hlt hp hp' ?_
    intro m e hm he
    obtain ⟨he', hlt'⟩ := getElem?_take_iff.mp he
    exact hset m e hm hlt' he'

def onePeriodicCall : List Label :=
  [.set ⟨2, 10, 200, 9, 7⟩ (setAt 10), .expireTimer 20, .take,
    .dispatch (dispatchAt 20), .enqueue, .dequeue 5 7, .invoke 5 22]

theorem callback_faithfulness_onePeriodicCall :
    ∃ s : System, s.hist[3]? = some (.invoke 5 ⟨2, some 200, 9, 20⟩ 22) ∧
      ∃ n p j, Serves (· == 2) s.hist 2 n p j 3 := by
  have hend : ((exec (fun s l => decide (System.Regular (fun _ => 7) s l))
      System.step (System.init (· == 2) fun _ => 10) onePeriodicCall).any fun s =>
        decide (s.hist[3]? = some (.invoke 5 ⟨2, some 200, 9, 20⟩ 22))) = true := by
    decide
  obtain ⟨s, hs, hend⟩ := (Option.any_eq_true _ _).mp hend
  have hinvoke := of_decide_eq_true hend
  exact ⟨s, hinvoke,
    (callback_faithfulness _ _ _ s (Reachable.of_exec hs)).1 3 5 _ 22 hinvoke⟩

end Alarm

end Osi
