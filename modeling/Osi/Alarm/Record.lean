import Osi.Alarm.Pipeline
import Osi.Alarm.Faithful

/-!
# The record of sets, dispatches and dequeues

What the events of a history say about each other and about the threads: the
deadlines of the sets with one interval do not decrease, a dispatch carries the
deadline of the last set, and a dequeued alarm has had its callback called unless
its thread is just about to call it. A queue is registered with one reactor,
whose thread runs `alarm_queue_ready`.
-/

namespace Osi

namespace Alarm

open Transition AlarmState Collection

def Event.Touches (a : AlarmPtr) (e : Event) : Prop := e.Sets a ∨ e.Cancels a

/-- The alarm is set at the position `n` and afterwards neither set again nor
cancelled. -/
def LastSet (hist : List Event) (a : AlarmPtr) (n : ℕ) (r : SetArgs)
    (t d : PeriodMs) : Prop :=
  IsLast (Event.Touches a) hist n (.set r t d)

namespace LastSet

variable {isPeriodic : AlarmPtr → Bool} {hist : List Event} {a : AlarmPtr}
  {n n' : ℕ} {r r' : SetArgs} {t d t' d' : PeriodMs}

theorem assigns (h : LastSet hist a n r t d) :
    (Event.set r t d).Assigns isPeriodic a :=
  h.2.1.elim Or.inl fun hcancel => Or.inr (Or.inl hcancel)

/-- The last assignment before a later position is this set, if it is a set. -/
theorem eq_of_isLast (h : LastSet hist a n r t d) {j : ℕ} (hj : n < j)
    (hlast : IsLast (Event.Assigns isPeriodic a) (hist.take j) n' (.set r' t' d')) :
    n' = n ∧ Event.set r' t' d' = .set r t d := by
  obtain ⟨hget, _⟩ := getElem?_take_iff.mp hlast.get
  have htouch : (Event.set r' t' d').Touches a := by
    rcases hlast.2.1 with hset | hcancel | ⟨_, hfalse⟩
    · exact Or.inl hset
    · exact Or.inr hcancel
    · exact hfalse.elim
  have hle : n' ≤ n := IsLast.le_of_getElem? h hget htouch
  have hge : n ≤ n' := hlast.le_of_getElem? (getElem?_take_iff.mpr ⟨h.get, hj⟩) h.assigns
  obtain rfl : n' = n := le_antisymm hle hge
  exact ⟨rfl, Option.some.inj (hget.symm.trans h.get)⟩

theorem eq_of_isLast_all (h : LastSet hist a n r t d)
    (hlast : IsLast (Event.Assigns isPeriodic a) hist n' (.set r' t' d')) :
    n' = n ∧ Event.set r' t' d' = .set r t d := by
  rw [← List.take_length (l := hist)] at hlast
  exact h.eq_of_isLast h.lt_length hlast

/-- If the alarm is not served after the set, nothing assigns it. -/
theorem isLast_assigns (h : LastSet hist a n r t d)
    (hnot : ∀ j e, n < j → hist[j]? = some e → ¬ e.Dequeues a) :
    IsLast (Event.Assigns isPeriodic a) hist n (.set r t d) := by
  refine ⟨h.get, h.assigns, ?_⟩
  rintro m e hm he (hset | hcancel | ⟨_, hdequeue⟩)
  · exact h.2.2 m e hm he (Or.inl hset)
  · exact h.2.2 m e hm he (Or.inr hcancel)
  · exact hnot m e hm he hdequeue

end LastSet

/-- A call that takes its instance after the last set serves this set. -/
theorem Serves.set_eq {isPeriodic : AlarmPtr → Bool} {hist : List Event}
    {a : AlarmPtr} {n n' p j k : ℕ} {r : SetArgs} {t d : PeriodMs}
    (h : Serves isPeriodic hist a n' p j k) (hset : LastSet hist a n r t d)
    (hlt : n < j) : n' = n := by
  obtain ⟨_, _, _, _, _, _, _, _, _, _, _, _, hlast, _⟩ := h
  exact (hset.eq_of_isLast hlt hlast).1

namespace System

/-- `alarm_queue_ready` is run for a queue by the thread of the reactor that the
queue is registered with. -/
def Registered (server : QueuePtr → Tid) (_ : System) : Label → Prop
  | .dequeue t q => t = server q
  | _ => True

instance (server : QueuePtr → Tid) (s : System) (l : Label) :
    Decidable (Registered server s l) :=
  match l with
  | .dequeue t q => inferInstanceAs (Decidable (t = server q))
  | .set _ _ | .cancel _ _ | .take | .dispatch _ | .enqueue | .invoke _ _
  | .finish _ _ | .expireTimer _ | .expireWakeupTimer _ => isTrue trivial

def Served (home : AlarmPtr → QueuePtr) (server : QueuePtr → Tid) (s : System)
    (l : Label) : Prop :=
  Regular home s l ∧ Registered server s l

instance (home : AlarmPtr → QueuePtr) (server : QueuePtr → Tid) (s : System)
    (l : Label) : Decidable (Served home server s l) :=
  inferInstanceAs (Decidable (_ ∧ _))

end System

/-! ## What the events say -/

/-- The record of the sets: their queue, and their deadlines in the order of the
history. -/
structure SetRecord (home : AlarmPtr → QueuePtr) (isPeriodic : AlarmPtr → Bool)
    (s : System) : Prop where
  queue : ∀ (n : ℕ) r t d, s.hist[n]? = some (Event.set r t d) →
    r.queue = home r.alarm
  bound : ∀ (n : ℕ) r t d, s.hist[n]? = some (Event.set r t d) →
    isPeriodic r.alarm = false →
    d.toNat ≤ s.clock.toNat + r.intervalMs.toNat
  ordered : ∀ (n n' : ℕ) r t d r' t' d', n < n' →
    s.hist[n]? = some (Event.set r t d) → s.hist[n']? = some (Event.set r' t' d') →
    isPeriodic r.alarm = false → isPeriodic r'.alarm = false →
    r.intervalMs = r'.intervalMs → d ≤ d'

def DispatchRecord (isPeriodic : AlarmPtr → Bool) (s : System) : Prop :=
  ∀ (p : ℕ) a d, s.hist[p]? = some (Event.dispatch a d) → isPeriodic a = false →
    d ≤ s.clock ∧ ∃ n r t,
      IsLast (Event.Assigns isPeriodic a) (s.hist.take p) n (.set r t d)

/-- The record of the dequeues: the callback has been called, or the thread is
about to call it. -/
structure DequeueRecord (home : AlarmPtr → QueuePtr) (server : QueuePtr → Tid)
    (s : System) : Prop where
  place : ∀ (j : ℕ) t q i, s.hist[j]? = some (Event.dequeue t q i) →
    t = server q ∧ q = home i.alarm
  called : ∀ (j : ℕ) t q i, s.hist[j]? = some (Event.dequeue t q i) →
    s.consumer t = .ready i ∨
      ∃ (k : ℕ) (τ : PeriodMs), j < k ∧ s.hist[k]? = some (Event.invoke t i τ)

namespace SetRecord

variable {home : AlarmPtr → QueuePtr} {isPeriodic : AlarmPtr → Bool} {s s' : System}

theorem congr (h : SetRecord home isPeriodic s) (hhist : s'.hist = s.hist)
    (hclock : s.clock ≤ s'.clock) : SetRecord home isPeriodic s' := by
  have hle := UInt64.le_iff_toNat_le.mp hclock
  refine ⟨hhist ▸ h.queue, ?_, hhist ▸ h.ordered⟩
  intro n r t d hn hsingle
  rw [hhist] at hn
  have := h.bound n r t d hn hsingle
  omega

theorem concat (h : SetRecord home isPeriodic s) {e : Event}
    (hhist : s'.hist = s.hist ++ [e]) (hclock : s.clock ≤ s'.clock)
    (hset : ∀ r t d, e = .set r t d → r.queue = home r.alarm ∧
      (isPeriodic r.alarm = false →
        s.clock.toNat + r.intervalMs.toNat ≤ d.toNat ∧
          d.toNat ≤ s'.clock.toNat + r.intervalMs.toNat)) :
    SetRecord home isPeriodic s' := by
  have hle := UInt64.le_iff_toNat_le.mp hclock
  refine ⟨?_, ?_, ?_⟩
  · intro n r t d hn
    rw [hhist] at hn
    rcases getElem?_concat_iff.mp hn with hn | ⟨_, rfl⟩
    · exact h.queue n r t d hn
    · exact (hset r t d rfl).1
  · intro n r t d hn hsingle
    rw [hhist] at hn
    rcases getElem?_concat_iff.mp hn with hn | ⟨_, rfl⟩
    · have := h.bound n r t d hn hsingle
      omega
    · exact ((hset r t d rfl).2 hsingle).2
  · intro n n' r t d r' t' d' hlt hn hn' hs hs' hinterval
    rw [hhist] at hn hn'
    rcases getElem?_concat_iff.mp hn' with hn' | ⟨rfl, rfl⟩
    · have hlen := lt_length_of_getElem? hn'
      have hn₁ := (getElem?_concat_iff.mp hn).resolve_right fun h => by omega
      exact h.ordered n n' r t d r' t' d' hlt hn₁ hn' hs hs' hinterval
    · have hn₁ := (getElem?_concat_iff.mp hn).resolve_right fun h => by omega
      have hbound := h.bound n r t d hn₁ hs
      have hnew := ((hset r' t' d' rfl).2 hs').1
      rw [UInt64.le_iff_toNat_le]
      rw [hinterval] at hbound
      omega

/-- The deadline that a single-shot alarm gets. -/
theorem deadline_of_set {r : SetArgs} {env : SetEnv} {m m' : AlarmState}
    (hkind : (m.alarm r.alarm).isPeriodic = false)
    (hfits : System.Scheduling System.DeadlineFits m (.set r env))
    (hm : m.alarmSetInternal r env = .ok m') :
    (m'.alarm r.alarm).deadline.toNat =
      env.schedule.now.toNat + r.intervalMs.toNat := by
  obtain ⟨⟨stats, halarm⟩, _⟩ := alarmSetInternal_ok hm
  have hzero : msIntoPeriod (assigned (m.alarm r.alarm) r env) env.schedule.now = 0 := by
    simp [msIntoPeriod, assigned, hkind]
  have hnat := nextDeadline_toNat hfits
  rw [hzero, UInt64.sub_zero] at hnat
  rw [halarm, Function.update_self]
  exact hnat

theorem step {l : Label} (h : SetRecord home isPeriodic s)
    (hkind : ∀ a, (s.mod.alarm a).isPeriodic = isPeriodic a)
    (hl : System.Regular home s l) (hstep : s.step l = .ok s') :
    SetRecord home isPeriodic s' := by
  obtain ⟨hone, hmono, hfits⟩ := hl
  have hclock : s.clock ≤ s'.clock := by
    rw [System.step_clock hstep]
    exact System.le_tick hmono (Or.inl rfl)
  cases System.step_progress hstep with
  | @set _ r env hm _ _ _ hhist =>
      refine h.concat hhist hclock ?_
      rintro r' t d heq
      obtain ⟨rfl, rfl, rfl⟩ := Event.set.inj heq
      refine ⟨hone, fun hsingle => ?_⟩
      have hnow : s.clock ≤ env.schedule.now :=
        (List.pairwise_cons.mp hmono).1 _ (by simp [Label.readings])
      have hthen : env.schedule.now ≤ s'.clock := by
        rw [System.step_clock hstep]
        exact System.le_tick hmono (Or.inr (by simp [Label.readings]))
      rw [UInt64.le_iff_toNat_le] at hnow hthen
      rw [deadline_of_set ((hkind _).trans hsingle) hfits hm]
      omega
  | cancel _ _ _ _ hhist => exact h.concat hhist hclock (by simp)
  | dispatch _ _ _ _ hhist => exact h.congr hhist hclock
  | enqueue _ _ _ _ hhist => exact h.concat hhist hclock (by simp)
  | dequeue _ _ _ _ _ hhist => exact h.concat hhist hclock (by simp)
  | invoke _ _ _ _ hhist => exact h.concat hhist hclock (by simp)
  | finish _ _ _ _ hhist => exact h.congr hhist hclock
  | same _ _ _ hhist => exact h.congr hhist hclock

end SetRecord

namespace DispatchRecord

variable {isPeriodic : AlarmPtr → Bool} {s s' : System}

theorem congr (h : DispatchRecord isPeriodic s) (hhist : s'.hist = s.hist)
    (hclock : s.clock ≤ s'.clock) : DispatchRecord isPeriodic s' := by
  intro p a d hp hsingle
  rw [hhist] at hp ⊢
  obtain ⟨hle, hset⟩ := h p a d hp hsingle
  exact ⟨UInt64.le_trans hle hclock, hset⟩

theorem concat (h : DispatchRecord isPeriodic s) {e : Event}
    (hhist : s'.hist = s.hist ++ [e]) (hclock : s.clock ≤ s'.clock)
    (hdispatch : ∀ a d, e = .dispatch a d → isPeriodic a = false → d ≤ s.clock ∧
      ∃ n r t, IsLast (Event.Assigns isPeriodic a) s.hist n (.set r t d)) :
    DispatchRecord isPeriodic s' := by
  intro p a d hp hsingle
  rw [hhist] at hp ⊢
  rcases getElem?_concat_iff.mp hp with hp | ⟨rfl, rfl⟩
  · obtain ⟨hle, hset⟩ := h p a d hp hsingle
    rw [take_concat (lt_length_of_getElem? hp).le]
    exact ⟨UInt64.le_trans hle hclock, hset⟩
  · obtain ⟨hle, hset⟩ := hdispatch a d rfl hsingle
    rw [take_concat le_rfl, List.take_length]
    exact ⟨UInt64.le_trans hle hclock, hset⟩

theorem step {home : AlarmPtr → QueuePtr} {l : Label} (h : DispatchRecord isPeriodic s)
    (hs : Sound home s) (hassigned : Assigned isPeriodic s)
    (htimely : Timely s.mod s.inTransit s.clock)
    (hkind : ∀ a, (s.mod.alarm a).isPeriodic = isPeriodic a)
    (hclock : s.clock ≤ s'.clock) (hprogress : System.Progress s l s') :
    DispatchRecord isPeriodic s' := by
  cases hprogress with
  | set _ _ _ _ hhist => exact h.concat hhist hclock (by simp)
  | cancel _ _ _ _ hhist => exact h.concat hhist hclock (by simp)
  | dispatch _ _ _ _ hhist => exact h.congr hhist hclock
  | @enqueue _ b hm hx _ _ hhist =>
      refine h.concat hhist hclock ?_
      rintro a d heq hsingle
      obtain ⟨rfl, rfl⟩ := Event.dispatch.inj heq
      have hsome := (hs.represents.scheduled_iff b).mpr (Or.inr (Or.inr hx))
      obtain ⟨n, r, t, d, hset⟩ := hassigned.armed b hsome
      obtain ⟨_, _, _, _, hdeadline⟩ := hassigned.agrees b n _ hset
      have hper := (hkind b).trans hsingle
      have hdue := (htimely.due b (Or.inl hx)).2
      rw [(callbackDispatchEnqueue_ok hm).1]
      rw [dispatchedDeadline, if_neg (by simp [hper])] at hdue ⊢
      rw [hdeadline hper] at hdue ⊢
      exact ⟨hdue, n, r, t, hset⟩
  | dequeue _ _ _ _ _ hhist => exact h.concat hhist hclock (by simp)
  | invoke _ _ _ _ hhist => exact h.concat hhist hclock (by simp)
  | finish _ _ _ _ hhist => exact h.congr hhist hclock
  | same _ _ _ hhist => exact h.congr hhist hclock

/-- The deadline of a single-shot alarm has come when it has been dispatched
since its last set. -/
theorem deadline_le (h : DispatchRecord isPeriodic s) {a : AlarmPtr} {n p : ℕ}
    {r : SetArgs} {t d d' : PeriodMs} (hsingle : isPeriodic a = false)
    (hset : LastSet s.hist a n r t d) (hlt : n < p)
    (hp : s.hist[p]? = some (Event.dispatch a d')) : d ≤ s.clock := by
  obtain ⟨hle, n', r', t', hlast⟩ := h p a d' hp hsingle
  obtain ⟨_, heq⟩ := hset.eq_of_isLast hlt hlast
  obtain ⟨_, _, rfl⟩ := Event.set.inj heq
  exact hle

end DispatchRecord

namespace DequeueRecord

variable {home : AlarmPtr → QueuePtr} {server : QueuePtr → Tid} {s s' : System}

theorem congr (h : DequeueRecord home server s) (hhist : s'.hist = s.hist)
    (hconsumer : ∀ t i, s.consumer t = .ready i → s'.consumer t = .ready i) :
    DequeueRecord home server s' := by
  refine ⟨hhist ▸ h.place, ?_⟩
  intro j t q i hj
  rw [hhist] at hj ⊢
  exact (h.called j t q i hj).imp_left (hconsumer t i)

theorem concat (h : DequeueRecord home server s) {e : Event}
    (hhist : s'.hist = s.hist ++ [e])
    (hconsumer : ∀ t i, s.consumer t = .ready i →
      s'.consumer t = .ready i ∨ ∃ τ, e = .invoke t i τ)
    (hdequeue : ∀ t q i, e = .dequeue t q i →
      (t = server q ∧ q = home i.alarm) ∧ s'.consumer t = .ready i) :
    DequeueRecord home server s' := by
  refine ⟨?_, ?_⟩
  · intro j t q i hj
    rw [hhist] at hj
    rcases getElem?_concat_iff.mp hj with hj | ⟨_, rfl⟩
    · exact h.place j t q i hj
    · exact (hdequeue t q i rfl).1
  · intro j t q i hj
    rw [hhist] at hj ⊢
    rcases getElem?_concat_iff.mp hj with hold | ⟨_, rfl⟩
    · rcases h.called j t q i hold with hready | ⟨k, τ, hlt, hk⟩
      · rcases hconsumer t i hready with hready' | ⟨τ, rfl⟩
        · exact Or.inl hready'
        · exact Or.inr ⟨s.hist.length, τ, lt_length_of_getElem? hold, by simp⟩
      · exact Or.inr ⟨k, τ, hlt, getElem?_concat_iff.mpr (Or.inl hk)⟩
    · exact Or.inl (hdequeue t q i rfl).2

theorem step {l : Label} (h : DequeueRecord home server s) (hs : Sound home s)
    (hl : System.Registered server s l) (hprogress : System.Progress s l s') :
    DequeueRecord home server s' := by
  have hkeep : ∀ {e : Event}, s'.consumer = s.consumer → ∀ t i,
      s.consumer t = .ready i → s'.consumer t = .ready i ∨ ∃ τ, e = .invoke t i τ :=
    fun hconsumer t i ht => Or.inl (hconsumer ▸ ht)
  cases hprogress with
  | set _ _ _ hconsumer hhist => exact h.concat hhist (hkeep hconsumer) (by simp)
  | cancel _ _ _ hconsumer hhist => exact h.concat hhist (hkeep hconsumer) (by simp)
  | dispatch _ _ _ hconsumer hhist =>
      exact h.congr hhist fun t i ht => hconsumer ▸ ht
  | enqueue _ _ _ hconsumer hhist => exact h.concat hhist (hkeep hconsumer) (by simp)
  | @dequeue _ t q i hm _ _ hidle hconsumer hhist =>
      obtain ⟨⟨rest, hlist, _⟩, _⟩ := alarmQueueReady_some hm
      have hqueued : i.alarm ∈ (s.mod.queues q).list := by simp [hlist]
      refine h.concat hhist ?_ ?_
      · intro t' i' ht'
        left
        have hne : t' ≠ t := by
          rintro rfl
          rw [hidle] at ht'
          cases ht'
        rw [hconsumer, Function.update_of_ne hne]
        exact ht'
      · rintro t' q' i' heq
        obtain ⟨rfl, rfl, rfl⟩ := Event.dequeue.inj heq
        refine ⟨⟨hl, hs.queue_eq _ _ (hs.represents.home _ _ hqueued)⟩, ?_⟩
        rw [hconsumer, Function.update_self]
  | @invoke _ t t0 i _ _ hready hconsumer hhist =>
      refine h.concat hhist ?_ (by simp)
      intro t' i' ht'
      by_cases htt : t' = t
      · subst htt
        obtain rfl : i = i' := ConsumerPhase.ready.inj (hready.symm.trans ht')
        exact Or.inr ⟨t0, rfl⟩
      · left
        rw [hconsumer, Function.update_of_ne htt]
        exact ht'
  | @finish _ t _ _ _ _ _ hrunning hconsumer hhist =>
      refine h.congr hhist ?_
      intro t' i' ht'
      have hne : t' ≠ t := by
        rintro rfl
        rw [hrunning] at ht'
        cases ht'
      rw [hconsumer, Function.update_of_ne hne]
      exact ht'
  | same _ _ hconsumer hhist => exact h.congr hhist fun t i ht => hconsumer ▸ ht

end DequeueRecord

end Alarm

end Osi
