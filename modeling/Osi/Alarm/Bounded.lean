import Osi.Alarm.Locking
import Osi.Alarm.Representation.Runs
import Mathlib.Data.Finset.Card

/-!
# The dispatcher and a bounded queue

`callback_dispatch` calls `fixed_queue_enqueue` with the monitor held, and the
thread that would make room in the queue needs the monitor in
`alarm_queue_ready`. When the queue is full at that moment the two wait for each
other. No queue holds an alarm twice, so that cannot happen as long as there are
never more alarms pending on the queue than it has slots.
-/

namespace Osi

namespace Alarm

open Transition AlarmState

/-- The alarms that are in the queue `q` or on their way to it; `x` is the alarm in
the hands of the dispatcher. -/
def pendingOn (m : AlarmState) (x : Option AlarmPtr) (q : QueuePtr) : Finset AlarmPtr :=
  ((m.alarms ++ x.toList).filter (fun a => (m.alarm a).queue = some q) ++
    (m.queues q).list).toFinset

theorem mem_pendingOn {m : AlarmState} {x : Option AlarmPtr} {q : QueuePtr}
    {a : AlarmPtr} :
    a ∈ pendingOn m x q ↔
      (a ∈ m.alarms ∨ x = some a) ∧ (m.alarm a).queue = some q ∨
        a ∈ (m.queues q).list := by
  simp only [pendingOn, List.toFinset_append, List.filter_append, Finset.mem_union,
    List.mem_toFinset, List.mem_filter, Option.mem_toList, decide_eq_true_eq]
  tauto

/-- An alarm is set on `q` only while fewer other alarms are pending on `q` than it
has slots. -/
def RoomOn (q : QueuePtr) (s : System) : Label → Prop
  | .set r _ =>
      r.queue = q →
        ((pendingOn s.mod s.inTransit q).erase r.alarm).card < (s.mod.queues q).slots
  | _ => True

instance (q : QueuePtr) (s : System) (l : Label) : Decidable (RoomOn q s l) :=
  match l with
  | .set _ _ => inferInstanceAs (Decidable (_ = q → _ < _))
  | .cancel _ _ | .take | .dispatch _ | .enqueue | .dequeue _ _ | .invoke _ _
  | .finish _ _ | .expireTimer _ | .expireWakeupTimer _ => isTrue trivial

namespace Effect

variable {l : Label} {m m' : AlarmState} {x x' : Option AlarmPtr}

theorem slots_eq (h : Effect l m x m' x') (hw : Wellformed m x) (q : QueuePtr) :
    (m'.queues q).slots = (m.queues q).slots := by
  suffices hcapacity : (m'.queues q).capacity = (m.queues q).capacity by
    rw [FixedQueue.slots, FixedQueue.slots, hcapacity]
  cases h with
  | set hm =>
      obtain ⟨_, _, hpurge⟩ := alarmSetInternal_ok hm
      exact hpurge.capacity q
  | cancel =>
      obtain ⟨_, _, hpurge⟩ := alarmCancel_spec m _ _
      exact hpurge.capacity q
  | @dispatch _ _ a env hm =>
      obtain ⟨rest, hcons, _, ⟨_, _, _, hqueues⟩ | ⟨hper, _, hcb⟩⟩ :=
        callbackDispatch_some hm
      · rw [hqueues]
      · have ha : a ∈ m.alarms := by simp [hcons]
        obtain ⟨_, hpurge⟩ := hcb (hw.callback_of_periodic a hper ha)
        exact hpurge.capacity q
  | enqueue hm =>
      obtain ⟨_, _, _, _, _, _, hcapacity, _⟩ := callbackDispatchEnqueue_ok hm
      exact hcapacity q
  | dequeue hm =>
      obtain ⟨_, _, _, _, hcapacity, _⟩ := alarmQueueReady_some hm
      exact hcapacity q
  | same hm => rw [hm.queues]

theorem mem_pendingOn_of (h : Effect l m x m' x') (hw : Wellformed m x) {q : QueuePtr}
    {b : AlarmPtr} (hb : b ∈ pendingOn m' x' q) :
    b ∈ pendingOn m x q ∨ ∃ r env, l = .set r env ∧ r.alarm = b ∧ r.queue = q := by
  by_cases hset : ∃ r env, l = .set r env ∧ r.alarm = b ∧ r.queue = q
  · exact Or.inr hset
  · left
    rw [mem_pendingOn] at hb ⊢
    have hqueue : (m'.alarm b).queue = some q → (m.alarm b).queue = some q := by
      intro hq
      rcases h.queue_eq b with hsame | ⟨r, env, rfl, rfl, hr⟩
      · exact hsame ▸ hq
      · rw [hr] at hq
        exact absurd ⟨r, env, rfl, rfl, Option.some.inj hq⟩ hset
    rcases hb with ⟨hpending, hq⟩ | hqueued
    · rcases h.pending_of hw hpending with hold | ⟨r, env, rfl, rfl, hr⟩
      · exact Or.inl ⟨hold, hqueue hq⟩
      · exact absurd ⟨r, env, rfl, rfl, Option.some.inj (hr.symm.trans hq)⟩ hset
    · rcases h.queued_of hw hqueued with hold | ⟨hx, hq⟩
      · exact Or.inr hold
      · exact Or.inl ⟨Or.inr hx, hq⟩

end Effect

/-- A full queue makes `callback_dispatch` wait. -/
theorem callbackDispatchEnqueue_blocked {m : AlarmState} {a : AlarmPtr} {q : QueuePtr}
    (hq : (m.alarm a).queue = some q) (h : m.callbackDispatchEnqueue a = .error .blocked) :
    (m.queues q).slots ≤ (m.queues q).list.length := by
  by_contra hroom
  have hsome : ((m.queues q).enqueue a).isSome := by
    have hsem : (m.queues q).enqueueSem ≠ 0 := by
      rw [Ne, FixedQueue.enqueueSem_eq_zero_iff]
      exact hroom
    simp [FixedQueue.enqueue, FixedQueue.tryEnqueue, hsem]
  obtain ⟨queue, hqueue⟩ := Option.isSome_iff_exists.mp hsome
  simp [callbackDispatchEnqueue, hq, hqueue] at h

structure Roomy (q : QueuePtr) (s : System) : Prop where
  wellformed : Wellformed s.mod s.inTransit
  card_le : (pendingOn s.mod s.inTransit q).card ≤ (s.mod.queues q).slots

namespace Roomy

variable {q : QueuePtr} {s s' : System}

theorem init (isPeriodic : AlarmPtr → Bool) (capacity : QueuePtr → UInt64) :
    Roomy q (System.init isPeriodic capacity) where
  wellformed := Wellformed.init isPeriodic capacity
  card_le := Nat.zero_le _

theorem step (h : Roomy q s) {l : Label} (hl : RoomOn q s l) (hs' : s.step l = .ok s') :
    Roomy q s' := by
  have heffect := System.step_effect hs'
  refine ⟨h.wellformed.effect heffect, ?_⟩
  rw [heffect.slots_eq h.wellformed q]
  by_cases hset : ∃ r env, l = .set r env ∧ r.queue = q
  · obtain ⟨r, env, rfl, rfl⟩ := hset
    have hsub : pendingOn s'.mod s'.inTransit r.queue ⊆
        insert r.alarm ((pendingOn s.mod s.inTransit r.queue).erase r.alarm) := by
      intro b hb
      by_cases hbr : b = r.alarm
      · exact Finset.mem_insert.mpr (Or.inl hbr)
      · refine Finset.mem_insert_of_mem (Finset.mem_erase.mpr ⟨hbr, ?_⟩)
        rcases heffect.mem_pendingOn_of h.wellformed hb with hold | ⟨r', env', hr', rfl, _⟩
        · exact hold
        · cases hr'
          exact absurd rfl hbr
    calc (pendingOn s'.mod s'.inTransit r.queue).card
        ≤ (insert r.alarm ((pendingOn s.mod s.inTransit r.queue).erase r.alarm)).card :=
          Finset.card_le_card hsub
      _ ≤ ((pendingOn s.mod s.inTransit r.queue).erase r.alarm).card + 1 :=
          Finset.card_insert_le _ _
      _ ≤ (s.mod.queues r.queue).slots := hl rfl
  · have hsub : pendingOn s'.mod s'.inTransit q ⊆ pendingOn s.mod s.inTransit q := by
      intro b hb
      rcases heffect.mem_pendingOn_of h.wellformed hb with hold | ⟨r, env, rfl, _, hr⟩
      · exact hold
      · exact absurd ⟨r, env, rfl, hr⟩ hset
    exact (Finset.card_le_card hsub).trans h.card_le

/-- The alarm that the dispatcher enqueues is pending and not in the queue, so it
has a slot. -/
theorem lt_slots (h : Roomy q s) {a : AlarmPtr} (ha : s.dispatcher = .enqueue a)
    (hq : (s.mod.alarm a).queue = some q) :
    (s.mod.queues q).list.length < (s.mod.queues q).slots := by
  have hx : s.inTransit = some a := by rw [System.inTransit, ha]
  have hfresh : a ∉ (s.mod.queues q).list := h.wellformed.transit_fresh a q hx hq
  have hsub : insert a (s.mod.queues q).list.toFinset ⊆ pendingOn s.mod s.inTransit q := by
    intro b hb
    rw [mem_pendingOn]
    rcases Finset.mem_insert.mp hb with rfl | hb
    · exact Or.inl ⟨Or.inr hx, hq⟩
    · exact Or.inr (List.mem_toFinset.mp hb)
  have hcard := (Finset.card_le_card hsub).trans h.card_le
  rw [Finset.card_insert_of_notMem (by simpa using hfresh),
    List.toFinset_card_of_nodup (h.wellformed.queue_nodup q)] at hcard
  exact hcard

end Roomy

namespace Threads

def blocked (r : Except Fault Threads) : Bool :=
  match r with
  | .error .blocked => true
  | _ => false

/-- The dispatcher thread `d` waits in `fixed_queue_enqueue` for a slot of `q`, with
the monitor held, and the thread `server` waits for the monitor in
`alarm_queue_ready(q)`. -/
structure Deadlocked (d server : Tid) (q : QueuePtr) (s : Threads) : Prop where
  holds : s.monitor = some d
  enqueues : ∃ a, s.sys.dispatcher = .enqueue a ∧ (s.sys.mod.alarm a).queue = some q
  full : blocked (s.step (.act d .enqueue)) = true
  serves : s.pc server = .readyLock q
  waits : blocked (s.step (.lockMonitor server)) = true

/-- In every run in which an alarm is set on `q` only while fewer other alarms are
pending on `q` than it has slots, the dispatcher and the thread that serves `q` do
not wait for each other. -/
theorem no_dispatcher_deadlock (isPeriodic : AlarmPtr → Bool)
    (capacity : QueuePtr → UInt64) (d server : Tid) (q : QueuePtr) (s : Threads)
    (h : Reachable (Guarded (Lift (RoomOn q)) (Next step)) (init isPeriodic capacity d) s) :
    ¬ Deadlocked d server q s := by
  rintro ⟨_, ⟨a, ha, hq⟩, hfull, _, _⟩
  have hroomy : Roomy q s.sys := (reachable_sys h).invariant
    (fun _ _ _ hs hstep => hs.step hstep.1 hstep.2) (Roomy.init isPeriodic capacity)
  have hlt := hroomy.lt_slots ha hq
  have hblocked : s.sys.mod.callbackDispatchEnqueue a = .error .blocked := by
    cases hmod : s.sys.mod.callbackDispatchEnqueue a with
    | ok mod =>
        simp only [step, System.step, ha, hmod, afterAct] at hfull
        split at hfull <;> cases hfull
    | error e =>
        simp only [step, System.step, ha, hmod] at hfull
        cases e <;> first | rfl | cases hfull
  have hle := callbackDispatchEnqueue_blocked hq hblocked
  omega

/-- Two alarms expire on the queue 7 before the thread 2 serves it: the dispatcher
enqueues the first and is about to enqueue the second. -/
def twoExpired : List ThreadLabel :=
  [.call 1 (.set ⟨5, 10, 100, 0, 7⟩), .lockMonitor 1,
    .act 1 (.set ⟨5, 10, 100, 0, 7⟩ (setAt 10)), .unlockMonitor 1,
    .call 1 (.set ⟨6, 10, 100, 0, 7⟩), .lockMonitor 1,
    .act 1 (.set ⟨6, 10, 100, 0, 7⟩ (setAt 10)), .unlockMonitor 1,
    .expire (.expireTimer 20), .act 0 .take, .lockMonitor 0,
    .act 0 (.dispatch (dispatchAt 20)), .act 0 .enqueue, .unlockMonitor 0,
    .expire (.expireTimer 20), .act 0 .take, .lockMonitor 0,
    .act 0 (.dispatch (dispatchAt 20)), .call 2 (.ready 7)]

/-- A queue with two slots lets the dispatcher go on. -/
theorem no_dispatcher_deadlock_twoExpired :
    ∃ s : Threads, s.sys.dispatcher = .enqueue 6 ∧ s.pc 2 = .readyLock 7 ∧
      ¬ Deadlocked 0 2 7 s := by
  have hend : ((exec (fun s l => decide (Lift (RoomOn 7) s l)) step
      (init (fun _ => false) (fun _ => 2) 0) twoExpired).any fun s =>
        decide (s.sys.dispatcher = .enqueue 6 ∧ s.pc 2 = .readyLock 7)) = true := by
    decide
  obtain ⟨s, hs, hend⟩ := (Option.any_eq_true _ _).mp hend
  obtain ⟨hdispatcher, hpc⟩ := of_decide_eq_true hend
  exact ⟨s, hdispatcher, hpc, no_dispatcher_deadlock _ _ 0 2 7 s (Reachable.of_exec hs)⟩

/-- On a queue of capacity 1 the same steps end in the deadlock. -/
theorem dispatcher_deadlock_twoExpired :
    ∃ s : Threads, Reachable (Next step) (init (fun _ => false) (fun _ => 1) 0) s ∧
      Deadlocked 0 2 7 s := by
  have hend : ((exec (fun _ _ => true) step (init (fun _ => false) (fun _ => 1) 0)
      twoExpired).any fun s => decide (s.monitor = some 0 ∧
        s.sys.dispatcher = .enqueue 6 ∧ (s.sys.mod.alarm 6).queue = some 7 ∧
        blocked (s.step (.act 0 .enqueue)) = true ∧ s.pc 2 = .readyLock 7 ∧
        blocked (s.step (.lockMonitor 2)) = true)) = true := by
    decide
  obtain ⟨s, hs, hend⟩ := (Option.any_eq_true _ _).mp hend
  obtain ⟨hholds, hdispatcher, hqueue, hfull, hserves, hwaits⟩ := of_decide_eq_true hend
  exact ⟨s, Reachable.of_exec_true hs, hholds, ⟨6, hdispatcher, hqueue⟩, hfull, hserves,
    hwaits⟩

end Threads

end Alarm

end Osi
