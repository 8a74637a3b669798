import Osi.Alarm.Bounded
import Osi.Alarm.Cancel
import Osi.Alarm.Record

/-!
# Callbacks that set and cancel their own alarm

`alarm_queue_ready` locks the `callback_lock` of the alarm with the monitor held,
and a callback, which runs with that lock held, takes the monitor when it sets or
cancels its alarm. The lock is recursive, so the two orders do no harm in one
thread. They meet when two threads serve one alarm: a callback that sets its
alarm on a queue of another thread can find that thread waiting for it, with the
monitor held, when it calls `alarm_cancel`.

An alarm that is only set where every thread that serves it, and every queue that
holds an instance of it, belong to the thread of the new queue has one server at
a time, and then nobody waits with the monitor for a thread that wants it.
-/

namespace Osi

namespace Alarm

open Transition AlarmState

namespace System

/-- An alarm is set on a queue only while no thread but the one of that queue
serves the alarm or has a queue with an instance of it. -/
def SetWhereServed (server : QueuePtr → Tid) (s : System) : Label → Prop
  | .set r _ =>
      (∀ q, r.alarm ∈ (s.mod.queues q).list → server q = server r.queue) ∧
        ∀ t, (s.consumer t).alarm = some r.alarm → t = server r.queue
  | _ => True

/-- Every place from which the alarm `a` may get to a callback belongs to the
thread `t`. -/
structure ServedBy (server : QueuePtr → Tid) (t : Tid) (a : AlarmPtr) (s : System) :
    Prop where
  pending : a ∈ s.mod.alarms ∨ s.inTransit = some a →
    ∀ q, (s.mod.alarm a).queue = some q → server q = t
  queued : ∀ q, a ∈ (s.mod.queues q).list → server q = t
  served : ∀ u, (s.consumer u).alarm = some a → u = t

structure OneServer (server : QueuePtr → Tid) (s : System) : Prop where
  wellformed : Wellformed s.mod s.inTransit
  servedBy : ∀ a, ∃ t, ServedBy server t a s

variable {server : QueuePtr → Tid} {s s' : System} {l : Label}

theorem ServedBy.set (hw : Wellformed s.mod s.inTransit) {r : SetArgs} {env : SetEnv}
    (hset : SetWhereServed server s (.set r env)) (hstep : s.step (.set r env) = .ok s') :
    ServedBy server (server r.queue) r.alarm s' := by
  have heffect := step_effect hstep
  cases step_cases hstep with
  | set hquiet hmod =>
      obtain ⟨⟨stats, halarm⟩, _⟩ := alarmSetInternal_ok hmod
      refine ⟨?_, ?_, ?_⟩
      · intro _ q hq
        rw [record_mod, halarm, Function.update_self] at hq
        rw [← Option.some.inj hq]
      · intro q hq
        rcases heffect.queued_of hw hq with hold | ⟨hx, _⟩
        · exact hset.1 q hold
        · rw [hquiet] at hx
          cases hx
      · intro u hu
        rcases step_consumer hstep hu with hold | ⟨q, hq, _⟩
        · exact hset.2 u hold
        · cases hq

theorem ServedBy.step {a : AlarmPtr} {t : Tid} (h : ServedBy server t a s)
    (hw : Wellformed s.mod s.inTransit) (hl : ¬ l.Sets a) (hreg : Registered server s l)
    (hstep : s.step l = .ok s') : ServedBy server t a s' := by
  have heffect := step_effect hstep
  refine ⟨?_, ?_, ?_⟩
  · intro hpending q hq
    rcases heffect.pending_of hw hpending with hold | ⟨r, env, rfl, hr, _⟩
    · rcases heffect.queue_eq a with hsame | ⟨r, env, rfl, hr, _⟩
      · exact h.pending hold q (hsame ▸ hq)
      · exact absurd hr hl
    · exact absurd hr hl
  · intro q hq
    rcases heffect.queued_of hw hq with hold | ⟨hx, hq⟩
    · exact h.queued q hold
    · exact h.pending (Or.inr hx) q hq
  · intro u hu
    rcases step_consumer hstep hu with hold | ⟨q, rfl, hq⟩
    · exact h.served u hold
    · rw [show u = server q from hreg]
      exact h.queued q hq

namespace OneServer

theorem init (isPeriodic : AlarmPtr → Bool) (capacity : QueuePtr → UInt64) :
    OneServer server (System.init isPeriodic capacity) where
  wellformed := Wellformed.init isPeriodic capacity
  servedBy a := by
    refine ⟨0, ?_, ?_, ?_⟩
    · rintro (ha | ha) <;> cases ha
    · intro q hq
      cases hq
    · intro u hu
      cases hu

theorem step (h : OneServer server s) (hreg : Registered server s l)
    (hset : SetWhereServed server s l) (hstep : s.step l = .ok s') :
    OneServer server s' := by
  refine ⟨h.wellformed.effect (step_effect hstep), ?_⟩
  intro a
  by_cases hl : l.Sets a
  · cases l with
    | set r env =>
        obtain rfl : r.alarm = a := hl
        exact ⟨_, ServedBy.set h.wellformed hset hstep⟩
    | _ => exact hl.elim
  · obtain ⟨t, ht⟩ := h.servedBy a
    exact ⟨t, ht.step h.wellformed hl hreg hstep⟩

end OneServer

end System

namespace Threads

def ownAlarm (s : Threads) : ThreadLabel → Bool
  | .call t c =>
      match s.sys.consumer t, c with
      | .running i _, .set r => r.alarm = i.alarm
      | .running i _, .cancel a => a = i.alarm
      | _, _ => true
  | _ => true

/-- The runs in which callbacks keep to their own alarms and queues are served by
the threads they are registered with. -/
def Reentrant (server : QueuePtr → Tid) (s : Threads) (l : ThreadLabel) : Prop :=
  s.ownAlarm l = true ∧ Lift (System.Registered server) s l

instance (server : QueuePtr → Tid) (s : Threads) (l : ThreadLabel) :
    Decidable (Reentrant server s l) :=
  inferInstanceAs (Decidable (_ ∧ _))

/-- The thread `u` has the monitor and waits for the `callback_lock` of `a`, and the
thread `v` has that lock and waits for the monitor. -/
structure LockDeadlock (u v : Tid) (a : AlarmPtr) (s : Threads) : Prop where
  holdsMonitor : s.monitor = some u
  locks : ∃ w, (s.pc u).afterLockCallback = some (a, w)
  waits : blocked (s.step (.lockCallback u)) = true
  holdsCallback : (s.callbackLock a).depth v ≠ 0
  waitsMonitor : blocked (s.step (.lockMonitor v)) = true

/-- Whoever has the `callback_lock` of an alarm and is about to take the monitor is
in the callback of the alarm. -/
theorem Locked.inCallback {d v : Tid} {a : AlarmPtr} {s : Threads} (h : Locked d s)
    (hholds : (s.callbackLock a).depth v ≠ 0)
    (hwaits : blocked (s.step (.lockMonitor v)) = true) : s.InCallback v a := by
  have hlocks : (s.pc v).callbackLocks a = 0 := by
    simp only [Threads.step] at hwaits
    cases hpc : s.pc v with
    | setLock | cancelLock | readyLock | dispatchLock => rfl
    | _ =>
        rw [hpc] at hwaits
        cases hwaits
  rw [h.callbackLock a v, hlocks, Nat.zero_add] at hholds
  cases hconsumer : s.sys.consumer v with
  | idle | ready =>
      rw [hconsumer] at hholds
      exact absurd rfl hholds
  | running i t0 =>
      rw [hconsumer] at hholds
      refine ⟨i, t0, hconsumer, ?_⟩
      by_contra hne
      exact hholds (if_neg hne)

/-- A thread that waits for a `callback_lock` with the monitor held is in
`alarm_queue_ready`. -/
theorem Locked.ready_of_locks {d u : Tid} {a : AlarmPtr} {s : Threads} (h : Locked d s)
    (hmonitor : s.monitor = some u) {w : Pc}
    (hlocks : (s.pc u).afterLockCallback = some (a, w)) :
    ∃ i, s.sys.consumer u = .ready i ∧ i.alarm = a := by
  have hholds := (h.exclusive u).mpr hmonitor
  cases hpc : s.pc u with
  | cancelCallbackLock b =>
      rw [hpc] at hholds
      cases hholds
  | readyCallbackLock i =>
      rw [hpc] at hlocks
      obtain ⟨hi, -⟩ := Prod.mk.inj (Option.some.inj hlocks)
      refine ⟨i, (h.ready u i).mpr ?_, hi⟩
      rw [hpc]
      rfl
  | _ =>
      rw [hpc] at hlocks
      cases hlocks

/-- In every run in which queues are served by the threads they are registered with
and an alarm is only set where it is served, no thread waits for a `callback_lock`
with the monitor held while the thread that has the lock waits for the monitor. -/
theorem no_lock_deadlock (server : QueuePtr → Tid) (isPeriodic : AlarmPtr → Bool)
    (capacity : QueuePtr → UInt64) (d : Tid) (s : Threads)
    (h : Reachable (Guarded (Lift fun s l => System.Registered server s l ∧
      System.SetWhereServed server s l) (Next step)) (init isPeriodic capacity d) s)
    (u v : Tid) (a : AlarmPtr) : ¬ LockDeadlock u v a s := by
  rintro ⟨hmonitor, ⟨w, hw⟩, -, hholds, hwaits⟩
  have hlocked : Locked d s := locked_of_reachable h
  have hone : System.OneServer server s.sys := (reachable_sys h).invariant
    (fun _ _ _ hs hstep => hs.step hstep.1.1 hstep.1.2 hstep.2)
    (System.OneServer.init isPeriodic capacity)
  obtain ⟨i, hready, hi⟩ := hlocked.ready_of_locks hmonitor hw
  obtain ⟨j, t0, hrunning, hj⟩ := hlocked.inCallback hholds hwaits
  obtain ⟨t, ht⟩ := hone.servedBy a
  have hu : u = t := ht.served u (by rw [hready]; exact congrArg some hi)
  have hv : v = t := ht.served v (by rw [hrunning]; exact congrArg some hj)
  rw [hu, ← hv, hrunning] at hready
  cases hready

theorem reachable_of_one_thread {server : Tid} {isPeriodic : AlarmPtr → Bool}
    {capacity : QueuePtr → UInt64} {d : Tid} {s : Threads}
    (h : Reachable (Guarded (Lift (System.Registered fun _ => server)) (Next step))
      (init isPeriodic capacity d) s) :
    Reachable (Guarded (Lift fun s l => System.Registered (fun _ => server) s l ∧
      System.SetWhereServed (fun _ => server) s l) (Next step))
      (init isPeriodic capacity d) s := by
  obtain ⟨ls, hrun⟩ := h
  refine ⟨ls, hrun.guarded_of_invariant
    (I := fun s => ∀ t a, (s.sys.consumer t).alarm = some a → t = server) ?_ ?_ ?_⟩
  · intro s l s' hs hl hstep t a ht
    have hsys : ∀ l sys', s.sys.step l = .ok sys' →
        System.Registered (fun _ => server) s.sys l →
        (sys'.consumer t).alarm = some a → t = server := by
      intro l sys' hsys hreg ht
      rcases System.step_consumer hsys ht with hold | ⟨q, rfl, -⟩
      · exact hs t a hold
      · exact hreg
    cases step_cases hstep with
    | call | lockMonitor | unlockMonitor | lockCallback | unlockCallback => exact hs t a ht
    | act hact _ => exact hsys _ _ hact hl ht
    | expire _ hact => exact hsys _ _ hact hl ht
  · intro s l hs hl
    have hset : ∀ l, System.SetWhereServed (fun _ => server) s.sys l := by
      intro l
      cases l with
      | set r env => exact ⟨fun _ _ => rfl, fun t ht => hs t r.alarm ht⟩
      | _ => trivial
    cases l with
    | act t l => exact ⟨hl, hset l⟩
    | expire l => exact ⟨hl, hset l⟩
    | _ => trivial
  · intro t a ht
    cases ht

/-- The thread 1 sets the alarm 5 on the queue 7, the thread 2 calls its callback,
and the callback sets the alarm again, on the queue 8. When it has expired again and
been put into that queue, the callback is about to cancel it. -/
def resetInCallback : List ThreadLabel :=
  [.call 1 (.set ⟨5, 10, 100, 0, 7⟩), .lockMonitor 1,
    .act 1 (.set ⟨5, 10, 100, 0, 7⟩ (setAt 10)), .unlockMonitor 1,
    .expire (.expireTimer 20), .act 0 .take, .lockMonitor 0,
    .act 0 (.dispatch (dispatchAt 20)), .act 0 .enqueue, .unlockMonitor 0,
    .call 2 (.ready 7), .lockMonitor 2, .act 2 (.dequeue 2 7), .lockCallback 2,
    .unlockMonitor 2, .act 2 (.invoke 2 21),
    .call 2 (.set ⟨5, 1, 100, 0, 8⟩), .lockMonitor 2,
    .act 2 (.set ⟨5, 1, 100, 0, 8⟩ (setAt 22)), .unlockMonitor 2,
    .expire (.expireTimer 23), .act 0 .take, .lockMonitor 0,
    .act 0 (.dispatch (dispatchAt 23)), .act 0 .enqueue, .unlockMonitor 0,
    .call 2 (.cancel 5)]

/-- The thread 2 serves both queues. -/
theorem no_lock_deadlock_resetInCallback :
    ∃ s : Threads, s.InCallback 2 5 ∧ s.pc 2 = .cancelLock 5 ∧
      (s.sys.mod.queues 8).list = [5] ∧ ∀ u v a, ¬ LockDeadlock u v a s := by
  have hend : ((exec (fun s l => decide (Lift (System.Registered fun _ => 2) s l)) step
      (init (fun _ => false) (fun _ => 10) 0) resetInCallback).any fun s =>
        decide (s.sys.consumer 2 = .running ⟨5, some 100, 0, 20⟩ 21 ∧
          s.pc 2 = .cancelLock 5 ∧ (s.sys.mod.queues 8).list = [5])) = true := by
    decide +kernel
  obtain ⟨s, hs, hend⟩ := (Option.any_eq_true _ _).mp hend
  obtain ⟨hrunning, hpc, hqueue⟩ := of_decide_eq_true hend
  exact ⟨s, ⟨_, _, hrunning, rfl⟩, hpc, hqueue, no_lock_deadlock (fun _ => 2) _ _ 0 s
    (reachable_of_one_thread (Reachable.of_exec hs))⟩

/-- The thread 3 serves the queue 8: it has the alarm and waits for its lock. -/
theorem lock_deadlock_resetInCallback :
    ∃ s : Threads, Reachable (Guarded (Reentrant fun q => if q = 7 then 2 else 3)
        (Next step)) (init (fun _ => false) (fun _ => 10) 0) s ∧ LockDeadlock 3 2 5 s := by
  have hend : ((exec (fun s l => decide (Reentrant (fun q => if q = 7 then 2 else 3) s l))
      step (init (fun _ => false) (fun _ => 10) 0) (resetInCallback ++
        [.call 3 (.ready 8), .lockMonitor 3, .act 3 (.dequeue 3 8)])).any fun s =>
        decide (s.monitor = some 3 ∧ (s.pc 3).afterLockCallback.map Prod.fst = some 5 ∧
          blocked (s.step (.lockCallback 3)) = true ∧ (s.callbackLock 5).depth 2 ≠ 0 ∧
          blocked (s.step (.lockMonitor 2)) = true)) = true := by
    decide +kernel
  obtain ⟨s, hs, hend⟩ := (Option.any_eq_true _ _).mp hend
  obtain ⟨hmonitor, hlocks, hwaits, hholds, hwaitsMonitor⟩ := of_decide_eq_true hend
  obtain ⟨⟨a, w⟩, hw, rfl⟩ := Option.map_eq_some_iff.mp hlocks
  exact ⟨s, Reachable.of_exec hs, hmonitor, ⟨w, hw⟩, hwaits, hholds, hwaitsMonitor⟩

end Threads

end Alarm

end Osi
