import Osi.Alarm.Record

/-!
# The order of the callbacks

Two single-shot alarms that are set on one queue and left alone are dispatched,
and their callbacks called, in the order of their deadlines and, for equal
deadlines, of their sets. The order of the pipelines says this of a state; here
it is carried over to the history, one event at a time.
-/

namespace Osi

namespace Alarm

open Transition AlarmState Collection

/-- What is known about a state of a run in which every queue is served by its
thread. -/
structure Chronicled (isPeriodic : AlarmPtr → Bool) (home : AlarmPtr → QueuePtr)
    (server : QueuePtr → Tid) (s : System) : Prop where
  sound : Sound home s
  assigned : Assigned isPeriodic s
  tracked : Tracked isPeriodic s
  inOrder : InOrder isPeriodic s
  consumers : Consumers isPeriodic s
  sets : SetRecord home isPeriodic s
  dispatches : DispatchRecord isPeriodic s
  dequeues : DequeueRecord home server s

theorem chronicled_of_reachable {isPeriodic : AlarmPtr → Bool}
    {capacity : QueuePtr → UInt64} {home : AlarmPtr → QueuePtr}
    {server : QueuePtr → Tid} {s : System}
    (h : Reachable (Guarded (System.Served home server) (Next System.step))
      (System.init isPeriodic capacity) s) : Chronicled isPeriodic home server s := by
  have hregular : ∀ s l, System.Served home server s l → System.Regular home s l :=
    fun s l hg => hg.1
  have hone : ∀ s l, System.Served home server s l → System.OneQueue home s l :=
    fun s l hg => hg.1.1
  have hinit : ∀ {n : ℕ} {e : Event}, ¬ (System.init isPeriodic capacity).hist[n]? =
      some e := by
    simp [System.init]
  refine ⟨sound_of_reachable hone h, assigned_of_reachable h,
    tracked_of_reachable hone h, inOrder_of_reachable hregular h,
    consumers_of_reachable hregular h, ?_, ?_, ?_⟩
  · refine h.induct (I := SetRecord home isPeriodic) ⟨?_, ?_, ?_⟩ ?_
    · exact fun n r t d hn => absurd hn hinit
    · exact fun n r t d hn => absurd hn hinit
    · exact fun n n' r t d r' t' d' _ hn => absurd hn hinit
    · rintro s l s' hreach hs ⟨hg, hstep⟩
      exact hs.step (isPeriodic_of_reachable hreach) hg.1 hstep
  · refine h.induct (I := DispatchRecord isPeriodic) ?_ ?_
    · exact fun p a d hp => absurd hp hinit
    · rintro s l s' hreach hs ⟨hg, hstep⟩
      have hclock : s.clock ≤ s'.clock := by
        rw [System.step_clock hstep]
        exact System.le_tick hg.1.2.1 (Or.inl rfl)
      exact hs.step (sound_of_reachable hone hreach) (assigned_of_reachable hreach)
        (timely_of_reachable hregular hreach) (isPeriodic_of_reachable hreach) hclock
        (System.step_progress hstep)
  · refine h.induct (I := DequeueRecord home server) ⟨?_, ?_⟩ ?_
    · exact fun j t q i hj => absurd hj hinit
    · exact fun j t q i hj => absurd hj hinit
    · rintro s l s' hreach hs ⟨hg, hstep⟩
      exact hs.step (sound_of_reachable hone hreach) hg.2 (System.step_progress hstep)

/-! ## Where an alarm is after its last set -/

namespace Chronicled

variable {isPeriodic : AlarmPtr → Bool} {home : AlarmPtr → QueuePtr}
  {server : QueuePtr → Tid} {s : System} {a b : AlarmPtr} {n n' : ℕ} {r r' : SetArgs}
  {t d t' d' : PeriodMs}

theorem dispatched_of_dequeue (h : Chronicled isPeriodic home server s)
    (hset : LastSet s.hist a n r t d) {j : ℕ} {tid : Tid} {q : QueuePtr} {i : Instance}
    (hj : s.hist[j]? = some (Event.dequeue tid q i)) (hi : i.alarm = a) (hlt : n < j) :
    ∃ (p : ℕ) (d₁ : PeriodMs), n < p ∧ p < j ∧
      s.hist[p]? = some (Event.dispatch a d₁) := by
  obtain ⟨⟨n₁, p, r₁, t₁, d₁, horigin⟩, _⟩ := h.consumers.dequeued j tid q i hj
  obtain ⟨hp, hpj⟩ := getElem?_take_iff.mp horigin.dispatch.get
  subst hi
  obtain ⟨rfl, _⟩ := hset.eq_of_isLast hlt horigin.set
  exact ⟨p, _, horigin.lt, hpj, hp⟩

theorem isLast_of_scheduled (h : Chronicled isPeriodic home server s)
    (hset : LastSet s.hist a n r t d)
    (hwhere : a ∈ s.mod.alarms ∨ (∃ q, a ∈ (s.mod.queues q).list) ∨
      s.inTransit = some a) :
    IsLast (Event.Assigns isPeriodic a) s.hist n (.set r t d) := by
  obtain ⟨n₁, r₁, t₁, d₁, hlast⟩ :=
    h.assigned.armed a ((h.sound.represents.scheduled_iff a).mpr hwhere)
  obtain ⟨rfl, heq⟩ := hset.eq_of_isLast_all hlast
  rw [← heq]
  exact hlast

/-- After its last set a single-shot alarm has been served, or it is still
somewhere. -/
theorem dequeued_or_scheduled (h : Chronicled isPeriodic home server s)
    (hset : LastSet s.hist a n r t d) :
    (∃ (j : ℕ) (tid : Tid) (q : QueuePtr) (i : Instance), n < j ∧ i.alarm = a ∧
      s.hist[j]? = some (Event.dequeue tid q i)) ∨
    (IsLast (Event.Assigns isPeriodic a) s.hist n (.set r t d) ∧
      (a ∈ s.mod.alarms ∨ (∃ q, a ∈ (s.mod.queues q).list) ∨ s.inTransit = some a)) := by
  by_cases hex : ∃ j e, n < j ∧ s.hist[j]? = some e ∧ e.Dequeues a
  · obtain ⟨j, e, hlt, hj, he⟩ := hex
    cases e with
    | dequeue tid q i => exact Or.inl ⟨j, tid, q, i, hlt, he, hj⟩
    | _ => exact he.elim
  · right
    have hlast : IsLast (Event.Assigns isPeriodic a) s.hist n (.set r t d) :=
      hset.isLast_assigns fun j e hlt hj he => hex ⟨j, e, hlt, hj, he⟩
    obtain ⟨hcallback, _⟩ := h.assigned.agrees a n _ hlast
    exact ⟨hlast, (h.sound.represents.scheduled_iff a).mp (by simp [hcallback])⟩

/-- It has been dispatched since, or it has not got further than the
dispatcher. -/
theorem dispatched_or_listed (h : Chronicled isPeriodic home server s)
    (hset : LastSet s.hist a n r t d) :
    (∃ (p : ℕ) (d₁ : PeriodMs), n < p ∧ s.hist[p]? = some (Event.dispatch a d₁)) ∨
      a ∈ s.mod.alarms ∨ s.inTransit = some a := by
  rcases h.dequeued_or_scheduled hset with
    ⟨j, tid, q, i, hlt, hi, hj⟩ | ⟨hlast, hlisted | ⟨q, hq⟩ | htransit⟩
  · obtain ⟨p, d₁, hnp, _, hp⟩ := h.dispatched_of_dequeue hset hj hi hlt
    exact Or.inl ⟨p, d₁, hnp, hp⟩
  · exact Or.inr (Or.inl hlisted)
  · obtain ⟨p, hp, hlt⟩ := h.tracked.queued a q hq
    exact Or.inl ⟨p, _, hlt n _ hlast, hp.get⟩
  · exact Or.inr (Or.inr htransit)

theorem dequeued_or_queued (h : Chronicled isPeriodic home server s)
    (hsingle : isPeriodic a = false) (hset : LastSet s.hist a n r t d) {p : ℕ}
    {d₁ : PeriodMs} (hp : s.hist[p]? = some (Event.dispatch a d₁)) (hlt : n < p) :
    (∃ (j : ℕ) (tid : Tid) (q : QueuePtr) (i : Instance), n < j ∧ i.alarm = a ∧
      s.hist[j]? = some (Event.dequeue tid q i)) ∨ a ∈ (s.mod.queues (home a)).list := by
  rcases h.dequeued_or_scheduled hset with hdequeue | ⟨hlast, hwhere⟩
  · exact Or.inl hdequeue
  · have hnot : ¬ (a ∈ s.mod.alarms ∨ s.inTransit = some a) := by
      intro hearly
      have := h.tracked.fresh a hsingle hearly n _ hlast p d₁ hp
      omega
    rcases hwhere with hlisted | ⟨q, hq⟩ | htransit
    · exact absurd (Or.inl hlisted) hnot
    · obtain rfl := h.sound.queue_eq a q (h.sound.represents.home a q hq)
      exact Or.inr hq
    · exact absurd (Or.inr htransit) hnot

theorem earlier_of_pipeline (h : Chronicled isPeriodic home server s)
    (ha : isPeriodic a = false) (hb : isPeriodic b = false)
    (hset : LastSet s.hist a n r t d) (hset' : LastSet s.hist b n' r' t' d')
    {q : QueuePtr} {front back : List AlarmPtr} (hpipe : s.pipeline q = front ++ back)
    (hfront : b ∈ front) (hback : a ∈ back) : Earlier d' n' d n := by
  have hsome : ∀ {x}, x ∈ s.pipeline q → x ∈ s.mod.alarms ∨
      (∃ q, x ∈ (s.mod.queues q).list) ∨ s.inTransit = some x := by
    intro x hx
    rw [System.pipeline, List.mem_append, List.mem_append, Option.mem_toList] at hx
    rcases hx with hx | hx | hx
    · exact Or.inr (Or.inl ⟨q, hx⟩)
    · exact Or.inr (Or.inr hx)
    · exact Or.inl hx
  have horder := h.inOrder q
  rw [List.pairwise_filter, hpipe, List.pairwise_append] at horder
  refine horder.2.2 b hfront a hback (by simp [hb]) (by simp [ha]) n' r' t' d' n r t d
    (h.isLast_of_scheduled hset' (hsome ?_)) (h.isLast_of_scheduled hset (hsome ?_))
  · rw [hpipe]
    exact List.mem_append_left back hfront
  · rw [hpipe]
    exact List.mem_append_right front hback

end Chronicled

/-! ## The order of the dispatches -/

def DispatchOrder (isPeriodic : AlarmPtr → Bool) (s : System) : Prop :=
  ∀ a b n n' r t d r' t' d', isPeriodic a = false → isPeriodic b = false →
    LastSet s.hist a n r t d → LastSet s.hist b n' r' t' d' → Earlier d n d' n' →
    ∀ (p' : ℕ) (d₁ : PeriodMs), n' < p' → s.hist[p']? = some (Event.dispatch b d₁) →
      ∃ (p : ℕ) (d₂ : PeriodMs), n < p ∧ p < p' ∧
        s.hist[p]? = some (Event.dispatch a d₂)

namespace DispatchOrder

variable {isPeriodic : AlarmPtr → Bool} {home : AlarmPtr → QueuePtr}
  {server : QueuePtr → Tid} {s s' : System}

theorem dispatched_of_transit (h : Chronicled isPeriodic home server s)
    {a b : AlarmPtr} {n n' : ℕ} {r r' : SetArgs} {t d t' d' : PeriodMs}
    (ha : isPeriodic a = false) (hb : isPeriodic b = false)
    (hset : LastSet s.hist a n r t d) (hset' : LastSet s.hist b n' r' t' d')
    (hlex : Earlier d n d' n') (hx : s.inTransit = some b) :
    ∃ (p : ℕ) (d₂ : PeriodMs), n < p ∧ s.hist[p]? = some (Event.dispatch a d₂) := by
  rcases h.dispatched_or_listed hset with hdispatched | hlisted | htransit
  · exact hdispatched
  · have hpipe : s.pipeline 0 = ((s.mod.queues 0).list ++ [b]) ++ s.mod.alarms := by
      simp [System.pipeline, hx]
    exact absurd (h.earlier_of_pipeline ha hb hset hset' hpipe (by simp) hlisted)
      hlex.asymm
  · obtain rfl : b = a := Option.some.inj (hx.symm.trans htransit)
    obtain ⟨rfl, heq⟩ := IsLast.unique hset hset'
    obtain ⟨_, _, rfl⟩ := Event.set.inj heq
    exact absurd hlex hlex.asymm

theorem concat (h : DispatchOrder isPeriodic s)
    (hs : Chronicled isPeriodic home server s) {e : Event}
    (hhist : s'.hist = s.hist ++ [e])
    (hdispatch : ∀ b d, e = .dispatch b d → s.inTransit = some b)
    (hclock : ∀ r t d, e = .set r t d → s.clock ≤ d) : DispatchOrder isPeriodic s' := by
  intro a b n n' r t d r' t' d' ha hb hset hset' hlex p' d₁ hlt hp'
  rw [hhist] at hp' ⊢
  rw [LastSet, hhist] at hset hset'
  rcases getElem?_concat_iff.mp hp' with hold | ⟨rfl, rfl⟩
  · have hlen := lt_length_of_getElem? hold
    -- `b` has been dispatched already, so the new event does not touch it
    have hb' : ¬ e.Touches b := hset'.not_of_concat (hlt.trans hlen)
    rw [IsLast.concat_iff_of_not hb'] at hset'
    by_cases ha' : e.Touches a
    · obtain ⟨rfl, rfl⟩ := (IsLast.concat_iff_of ha').mp hset
      have hdue := hs.dispatches.deadline_le hb hset' hlt hold
      have hnew := UInt64.le_trans hdue (hclock r t d rfl)
      exact absurd hlex (Earlier.of_le hnew hset'.lt_length).asymm
    · rw [IsLast.concat_iff_of_not ha'] at hset
      obtain ⟨p, d₂, hnp, hpp, hp⟩ :=
        h a b n n' r t d r' t' d' ha hb hset hset' hlex p' d₁ hlt hold
      exact ⟨p, d₂, hnp, hpp, getElem?_concat_iff.mpr (Or.inl hp)⟩
  · have hnot : ∀ x, ¬ (Event.dispatch b d₁).Touches x := by
      rintro x (hfalse | hfalse) <;> exact hfalse
    rw [IsLast.concat_iff_of_not (hnot a)] at hset
    rw [IsLast.concat_iff_of_not (hnot b)] at hset'
    obtain ⟨p, d₂, hnp, hp⟩ := dispatched_of_transit hs ha hb hset hset' hlex
      (hdispatch b d₁ rfl)
    exact ⟨p, d₂, hnp, lt_length_of_getElem? hp, getElem?_concat_iff.mpr (Or.inl hp)⟩

theorem congr (h : DispatchOrder isPeriodic s) (hhist : s'.hist = s.hist) :
    DispatchOrder isPeriodic s' := by
  unfold DispatchOrder
  rw [hhist]
  exact h

end DispatchOrder

theorem DispatchOrder.step {isPeriodic : AlarmPtr → Bool} {home : AlarmPtr → QueuePtr}
    {server : QueuePtr → Tid} {s s' : System} {l : Label}
    (h : DispatchOrder isPeriodic s) (hs : Chronicled isPeriodic home server s)
    (hl : System.Regular home s l) (hprogress : System.Progress s l s') :
    DispatchOrder isPeriodic s' := by
  cases hprogress with
  | set hm _ _ _ hhist =>
      refine h.concat hs hhist (by simp) ?_
      rintro r' t d heq
      obtain ⟨rfl, rfl, rfl⟩ := Event.set.inj heq
      exact clock_le_deadline_of_set hl.2.1 hl.2.2 hm
  | cancel _ _ _ _ hhist => exact h.concat hs hhist (by simp) (by simp)
  | dispatch _ _ _ _ hhist => exact h.congr hhist
  | enqueue _ hx _ _ hhist =>
      refine h.concat hs hhist ?_ (by simp)
      rintro b d heq
      obtain ⟨rfl, _⟩ := Event.dispatch.inj heq
      exact hx
  | dequeue _ _ _ _ _ hhist => exact h.concat hs hhist (by simp) (by simp)
  | invoke _ _ _ _ hhist => exact h.concat hs hhist (by simp) (by simp)
  | finish _ _ _ _ hhist => exact h.congr hhist
  | same _ _ _ hhist => exact h.congr hhist

/-! ## The order of the calls -/

def CallOrder (isPeriodic : AlarmPtr → Bool) (s : System) : Prop :=
  ∀ a b n n' r t d r' t' d', isPeriodic a = false → isPeriodic b = false →
    LastSet s.hist a n r t d → LastSet s.hist b n' r' t' d' → Earlier d n d' n' →
    r.queue = r'.queue → ∀ (j' : ℕ) (tid : Tid) (q : QueuePtr) (i' : Instance),
      n' < j' → i'.alarm = b → s.hist[j']? = some (Event.dequeue tid q i') →
      ∃ (j k : ℕ) (tid' : Tid) (q' : QueuePtr) (i : Instance) (τ : PeriodMs),
        n < j ∧ j < k ∧ k < j' ∧ i.alarm = a ∧
          s.hist[j]? = some (Event.dequeue tid' q' i) ∧
          s.hist[k]? = some (Event.invoke tid' i τ)

namespace CallOrder

variable {isPeriodic : AlarmPtr → Bool} {home : AlarmPtr → QueuePtr}
  {server : QueuePtr → Tid} {s s' : System}

/-- When `b` is at the front of its queue and the thread of the queue is idle,
the callback of `a` has been called. -/
theorem called_of_dequeue (hs : Chronicled isPeriodic home server s)
    (hdispatch : DispatchOrder isPeriodic s) {a b : AlarmPtr} {n n' : ℕ}
    {r r' : SetArgs} {t d t' d' : PeriodMs}
    (ha : isPeriodic a = false) (hb : isPeriodic b = false)
    (hset : LastSet s.hist a n r t d) (hset' : LastSet s.hist b n' r' t' d')
    (hlex : Earlier d n d' n') (hqueue : r.queue = r'.queue) {q : QueuePtr}
    {rest : List AlarmPtr} (hfront : (s.mod.queues q).list = b :: rest)
    (hidle : s.consumer (server q) = .idle) :
    ∃ (j k : ℕ) (tid : Tid) (q' : QueuePtr) (i : Instance) (τ : PeriodMs),
      n < j ∧ j < k ∧ i.alarm = a ∧ s.hist[j]? = some (Event.dequeue tid q' i) ∧
        s.hist[k]? = some (Event.invoke tid i τ) := by
  have hqueued : b ∈ (s.mod.queues q).list := by simp [hfront]
  have hhome : home a = q := by
    have hra : r.alarm = a := hset.2.1.elim id False.elim
    have hrb : r'.alarm = b := hset'.2.1.elim id False.elim
    have hqa := hs.sets.queue n r t d hset.get
    have hqb := hs.sets.queue n' r' t' d' hset'.get
    have hq := hs.sound.queue_eq b q (hs.sound.represents.home b q hqueued)
    rw [hq, ← hra, ← hqa, hqueue, hqb, hrb]
  have hlast := hs.isLast_of_scheduled hset' (Or.inr (Or.inl ⟨q, hqueued⟩))
  obtain ⟨p', hp', hlt'⟩ := hs.tracked.queued b q hqueued
  obtain ⟨p, d₂, hnp, _, hp⟩ := hdispatch a b n n' r t d r' t' d' ha hb hset hset' hlex
    p' _ (hlt' n' _ hlast) hp'.get
  rcases hs.dequeued_or_queued ha hset hp hnp with
    ⟨j, tid, q', i, hnj, hi, hj⟩ | hwaiting
  · obtain ⟨rfl, rfl⟩ := hs.dequeues.place j tid q' i hj
    rw [hi, hhome] at hj
    rcases hs.dequeues.called j _ _ i hj with hready | ⟨k, τ, hjk, hk⟩
    · rw [hidle] at hready
      cases hready
    · exact ⟨j, k, _, _, i, τ, hnj, hjk, hi, hj, hk⟩
  · rw [hhome, hfront] at hwaiting
    rcases List.mem_cons.mp hwaiting with rfl | hrest
    · obtain ⟨rfl, heq⟩ := IsLast.unique hset hset'
      obtain ⟨_, _, rfl⟩ := Event.set.inj heq
      exact absurd hlex hlex.asymm
    · have hpipe : s.pipeline q =
          [b] ++ (rest ++ (s.inTransit.toList ++ s.mod.alarms)) := by
        simp [System.pipeline, hfront]
      exact absurd (hs.earlier_of_pipeline ha hb hset hset' hpipe (by simp)
        (List.mem_append_left _ hrest)) hlex.asymm

theorem concat (h : CallOrder isPeriodic s) (hs : Chronicled isPeriodic home server s)
    (hdispatch : DispatchOrder isPeriodic s) {e : Event}
    (hhist : s'.hist = s.hist ++ [e])
    (hdequeue : ∀ tid q i, e = .dequeue tid q i → tid = server q ∧
      s.consumer tid = .idle ∧ ∃ rest, (s.mod.queues q).list = i.alarm :: rest)
    (hclock : ∀ r t d, e = .set r t d → s.clock ≤ d) : CallOrder isPeriodic s' := by
  intro a b n n' r t d r' t' d' ha hb hset hset' hlex hqueue j' tid q i' hlt hi' hj'
  rw [hhist] at hj' ⊢
  rw [LastSet, hhist] at hset hset'
  rcases getElem?_concat_iff.mp hj' with hold | ⟨rfl, rfl⟩
  · have hlen := lt_length_of_getElem? hold
    -- `b` has been served already, so the new event does not touch it
    have hb' : ¬ e.Touches b := hset'.not_of_concat (hlt.trans hlen)
    rw [IsLast.concat_iff_of_not hb'] at hset'
    by_cases ha' : e.Touches a
    · obtain ⟨rfl, rfl⟩ := (IsLast.concat_iff_of ha').mp hset
      obtain ⟨p, d₁, hnp, _, hp⟩ := hs.dispatched_of_dequeue hset' hold hi' hlt
      have hdue := hs.dispatches.deadline_le hb hset' hnp hp
      have hnew := UInt64.le_trans hdue (hclock r t d rfl)
      exact absurd hlex (Earlier.of_le hnew hset'.lt_length).asymm
    · rw [IsLast.concat_iff_of_not ha'] at hset
      obtain ⟨j, k, tid', q', i, τ, hnj, hjk, hkj, hi, hj, hk⟩ :=
        h a b n n' r t d r' t' d' ha hb hset hset' hlex hqueue j' tid q i' hlt hi' hold
      exact ⟨j, k, tid', q', i, τ, hnj, hjk, hkj, hi,
        getElem?_concat_iff.mpr (Or.inl hj), getElem?_concat_iff.mpr (Or.inl hk)⟩
  · have hnot : ∀ x, ¬ (Event.dequeue tid q i').Touches x := by
      rintro x (hfalse | hfalse) <;> exact hfalse
    rw [IsLast.concat_iff_of_not (hnot a)] at hset
    rw [IsLast.concat_iff_of_not (hnot b)] at hset'
    obtain ⟨rfl, hidle, rest, hfront⟩ := hdequeue tid q i' rfl
    rw [hi'] at hfront
    obtain ⟨j, k, tid', q', i, τ, hnj, hjk, hi, hj, hk⟩ :=
      called_of_dequeue hs hdispatch ha hb hset hset' hlex hqueue hfront hidle
    exact ⟨j, k, tid', q', i, τ, hnj, hjk, lt_length_of_getElem? hk, hi,
      getElem?_concat_iff.mpr (Or.inl hj), getElem?_concat_iff.mpr (Or.inl hk)⟩

theorem congr (h : CallOrder isPeriodic s) (hhist : s'.hist = s.hist) :
    CallOrder isPeriodic s' := by
  unfold CallOrder
  rw [hhist]
  exact h

theorem step {l : Label} (h : CallOrder isPeriodic s)
    (hs : Chronicled isPeriodic home server s) (hdispatch : DispatchOrder isPeriodic s)
    (hl : System.Served home server s l) (hprogress : System.Progress s l s') :
    CallOrder isPeriodic s' := by
  obtain ⟨⟨_, hmono, hfits⟩, hserver⟩ := hl
  cases hprogress with
  | set hm _ _ _ hhist =>
      refine h.concat hs hdispatch hhist (by simp) ?_
      rintro r' t d heq
      obtain ⟨rfl, rfl, rfl⟩ := Event.set.inj heq
      exact clock_le_deadline_of_set hmono hfits hm
  | cancel _ _ _ _ hhist => exact h.concat hs hdispatch hhist (by simp) (by simp)
  | dispatch _ _ _ _ hhist => exact h.congr hhist
  | enqueue _ _ _ _ hhist => exact h.concat hs hdispatch hhist (by simp) (by simp)
  | dequeue hm _ _ hidle _ hhist =>
      refine h.concat hs hdispatch hhist ?_ (by simp)
      rintro tid q i heq
      obtain ⟨rfl, rfl, rfl⟩ := Event.dequeue.inj heq
      obtain ⟨⟨rest, hlist, _⟩, _⟩ := alarmQueueReady_some hm
      exact ⟨hserver, hidle, rest, hlist⟩
  | invoke _ _ _ _ hhist => exact h.concat hs hdispatch hhist (by simp) (by simp)
  | finish _ _ _ _ hhist => exact h.congr hhist
  | same _ _ _ hhist => exact h.congr hhist

end CallOrder

theorem dispatchOrder_of_reachable {isPeriodic : AlarmPtr → Bool}
    {capacity : QueuePtr → UInt64} {home : AlarmPtr → QueuePtr}
    {server : QueuePtr → Tid} {s : System}
    (h : Reachable (Guarded (System.Served home server) (Next System.step))
      (System.init isPeriodic capacity) s) : DispatchOrder isPeriodic s := by
  refine h.induct (I := DispatchOrder isPeriodic) ?_ ?_
  · intro a b n n' r t d r' t' d' _ _ hset
    exact absurd hset.get (by simp [System.init])
  · rintro s l s' hreach hs ⟨hg, hstep⟩
    exact hs.step (chronicled_of_reachable hreach) hg.1 (System.step_progress hstep)

theorem callOrder_of_reachable {isPeriodic : AlarmPtr → Bool}
    {capacity : QueuePtr → UInt64} {home : AlarmPtr → QueuePtr}
    {server : QueuePtr → Tid} {s : System}
    (h : Reachable (Guarded (System.Served home server) (Next System.step))
      (System.init isPeriodic capacity) s) : CallOrder isPeriodic s := by
  refine h.induct (I := CallOrder isPeriodic) ?_ ?_
  · intro a b n n' r t d r' t' d' _ _ hset
    exact absurd hset.get (by simp [System.init])
  · rintro s l s' hreach hs ⟨hg, hstep⟩
    exact hs.step (chronicled_of_reachable hreach) (dispatchOrder_of_reachable hreach)
      hg (System.step_progress hstep)

/-- In every run with a non-decreasing clock, one queue for each alarm, served
by its thread, and deadlines that do not wrap: if two single-shot alarms are set
on one queue and neither set again nor cancelled, and the deadline and position
of the set of `a` come before those of `b` (in particular if `a` is set first
and with the same interval), then `b` is not enqueued before `a`, and the call
that serves the set of `b` comes after one that serves the set of `a`. -/
theorem callback_ordering (isPeriodic : AlarmPtr → Bool)
    (capacity : QueuePtr → UInt64) (home : AlarmPtr → QueuePtr)
    (server : QueuePtr → Tid) (s : System)
    (h : Reachable (Guarded (System.Served home server) (Next System.step))
      (System.init isPeriodic capacity) s)
    (a b : AlarmPtr) (n n' : ℕ) (r r' : SetArgs) (t d t' d' : PeriodMs)
    (ha : isPeriodic a = false) (hb : isPeriodic b = false)
    (hset : LastSet s.hist a n r t d) (hset' : LastSet s.hist b n' r' t' d')
    (hqueue : r.queue = r'.queue)
    (hlex : Earlier d n d' n' ∨ (r.intervalMs = r'.intervalMs ∧ n < n')) :
    (∀ (p' : ℕ) (d₁ : PeriodMs), n' < p' →
      s.hist[p']? = some (Event.dispatch b d₁) →
      ∃ (p : ℕ) (d₂ : PeriodMs), n < p ∧ p < p' ∧
        s.hist[p]? = some (Event.dispatch a d₂)) ∧
    (∀ p' j' k', Serves isPeriodic s.hist b n' p' j' k' →
      ∃ p j k, Serves isPeriodic s.hist a n p j k ∧ k < k') := by
  have hs := chronicled_of_reachable h
  have hlex' : Earlier d n d' n' := by
    rcases hlex with hlex | ⟨hinterval, hlt⟩
    · exact hlex
    · have hra : r.alarm = a := hset.2.1.elim id False.elim
      have hrb : r'.alarm = b := hset'.2.1.elim id False.elim
      have hle := hs.sets.ordered n n' r t d r' t' d' hlt hset.get hset'.get
        (hra ▸ ha) (hrb ▸ hb) hinterval
      rcases UInt64.lt_or_eq_of_le hle with hlt' | heq
      · exact Or.inl hlt'
      · exact Or.inr ⟨heq, hlt⟩
  refine ⟨dispatchOrder_of_reachable h a b n n' r t d r' t' d' ha hb hset hset' hlex', ?_⟩
  intro p' j' k' hserves
  obtain ⟨tid, q, i', hi', hj', hnj', hjk'⟩ := hserves.dequeue
  obtain ⟨j₁, k, tid', q', i, τ, hnj, hjk, hkj, hi, hj, hk⟩ :=
    callOrder_of_reachable h a b n n' r t d r' t' d' ha hb hset hset' hlex' hqueue
      j' tid q i' hnj' hi' hj'
  obtain ⟨n₁, p, j, hserves₁⟩ := hs.consumers.serves hk
  rw [hi] at hserves₁
  have hle := hserves₁.le_dequeue hk hj hjk
  obtain rfl := hserves₁.set_eq hset (by omega)
  exact ⟨p, j, k, hserves₁, by omega⟩

/-- Two alarms with the same interval, set one after the other on one queue, and
their calls. -/
def twoCalls : List Label :=
  [.set ⟨1, 10, 100, 0, 7⟩ (setAt 10), .set ⟨2, 10, 200, 0, 7⟩ (setAt 10),
    .expireTimer 20, .take, .dispatch (dispatchAt 20), .enqueue, .expireTimer 20, .take,
    .dispatch (dispatchAt 20), .enqueue, .dequeue 5 7, .invoke 5 22, .finish 5 23,
    .dequeue 5 7, .invoke 5 24]

theorem callback_ordering_twoCalls :
    ∃ s : System, s.hist[5]? = some (.invoke 5 ⟨1, some 100, 0, 20⟩ 22) ∧
      s.hist[7]? = some (.invoke 5 ⟨2, some 200, 0, 20⟩ 24) ∧
      ∀ p' j' k', Serves (fun _ => false) s.hist 2 1 p' j' k' →
        ∃ p j k, Serves (fun _ => false) s.hist 1 0 p j k ∧ k < k' := by
  have hend : ((exec (fun s l => decide (System.Served (fun _ => 7) (fun _ => 5) s l))
      System.step (System.init (fun _ => false) fun _ => 10) twoCalls).any fun s =>
        decide (s.hist =
          [.set ⟨1, 10, 100, 0, 7⟩ 10 20, .set ⟨2, 10, 200, 0, 7⟩ 10 20, .dispatch 1 20,
            .dispatch 2 20, .dequeue 5 7 ⟨1, some 100, 0, 20⟩,
            .invoke 5 ⟨1, some 100, 0, 20⟩ 22, .dequeue 5 7 ⟨2, some 200, 0, 20⟩,
            .invoke 5 ⟨2, some 200, 0, 20⟩ 24])) = true := by
    decide
  obtain ⟨s, hs, hend⟩ := (Option.any_eq_true _ _).mp hend
  have hhist := of_decide_eq_true hend
  refine ⟨s, by simp [hhist], by simp [hhist], ?_⟩
  have hset : LastSet s.hist 1 0 ⟨1, 10, 100, 0, 7⟩ 10 20 :=
    .of_drop (by simp [hhist]) (Or.inl rfl)
      (by simp [hhist, Event.Touches, Event.Sets, Event.Cancels])
  have hset' : LastSet s.hist 2 1 ⟨2, 10, 200, 0, 7⟩ 10 20 :=
    .of_drop (by simp [hhist]) (Or.inl rfl)
      (by simp [hhist, Event.Touches, Event.Sets, Event.Cancels])
  exact (callback_ordering _ _ _ _ s (Reachable.of_exec hs) 1 2 0 1 _ _ _ _ _ _ rfl rfl
    hset hset' rfl (Or.inr ⟨rfl, by simp⟩)).2

end Alarm

end Osi
