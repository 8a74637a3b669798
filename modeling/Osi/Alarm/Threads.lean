import Osi.Alarm.System
import Osi.Transition.Threads

/-!
# The threads and locks of the alarm module

`Threads` adds the locks to `System`. Any number of threads call `alarm_set`,
`alarm_cancel` and, on behalf of a reactor, `alarm_queue_ready`; one more thread
runs `callback_dispatch`. A step locks or unlocks the monitor or the
`callback_lock` of an alarm, or it is one of the sections in between, which are
the steps of `System`.

A thread that is in a callback is at `Pc.idle` like a thread in code of its own:
it may call `alarm_set` and `alarm_cancel` from there. Which callback that is
stands in `System.consumer`.
-/

namespace Osi

namespace Alarm

open Transition

inductive Call
  | set (r : SetArgs)
  | cancel (a : AlarmPtr)
  | ready (q : QueuePtr)
  deriving DecidableEq, Repr

/-- Where a thread is. The points of each function are in program order. -/
inductive Pc
  | idle
  -- `alarm_set_internal`
  | setLock (r : SetArgs)
  | setSection (r : SetArgs)
  | setUnlock
  -- `alarm_cancel`
  | cancelLock (a : AlarmPtr)
  | cancelSection (a : AlarmPtr)
  | cancelUnlock (a : AlarmPtr)
  | cancelCallbackLock (a : AlarmPtr)
  | cancelCallbackUnlock (a : AlarmPtr)
  -- `alarm_queue_ready`
  | readyLock (q : QueuePtr)
  | readySection (q : QueuePtr)
  /-- the queue was empty -/
  | readyReturn
  | readyCallbackLock (i : Instance)
  | readyUnlock (i : Instance)
  | readyCallback (i : Instance)
  | readyCallbackUnlock (a : AlarmPtr)
  -- `callback_dispatch`
  | dispatchWait
  | dispatchLock
  | dispatchSection
  | dispatchEnqueue
  | dispatchUnlock
  deriving DecidableEq, Repr

namespace Pc

/-- The points at which `pthread_mutex_lock(&monitor)` is called, with the next
point. -/
def afterLockMonitor : Pc → Option Pc
  | setLock r => some (setSection r)
  | cancelLock a => some (cancelSection a)
  | readyLock q => some (readySection q)
  | dispatchLock => some dispatchSection
  | _ => none

/-- The same for `pthread_mutex_unlock(&monitor)`. -/
def afterUnlockMonitor : Pc → Option Pc
  | setUnlock => some idle
  | cancelUnlock a => some (cancelCallbackLock a)
  | readyReturn => some idle
  | readyUnlock i => some (readyCallback i)
  | dispatchUnlock => some dispatchWait
  | _ => none

def afterLockCallback : Pc → Option (AlarmPtr × Pc)
  | cancelCallbackLock a => some (a, cancelCallbackUnlock a)
  | readyCallbackLock i => some (i.alarm, readyUnlock i)
  | _ => none

def afterUnlockCallback : Pc → Option (AlarmPtr × Pc)
  | cancelCallbackUnlock a => some (a, idle)
  | readyCallbackUnlock a => some (a, idle)
  | _ => none

def isDispatch : Pc → Bool
  | dispatchWait | dispatchLock | dispatchSection | dispatchEnqueue
  | dispatchUnlock => true
  | _ => false

end Pc

namespace Call

def entry : Call → Pc
  | set r => .setLock r
  | cancel a => .cancelLock a
  | ready q => .readyLock q

def isReady : Call → Bool
  | ready _ => true
  | _ => false

end Call

def Label.isExpiry : Label → Bool
  | expireTimer _ | expireWakeupTimer _ => true
  | _ => false

inductive ThreadLabel
  | call (t : Tid) (c : Call)
  | lockMonitor (t : Tid)
  | unlockMonitor (t : Tid)
  | lockCallback (t : Tid)
  | unlockCallback (t : Tid)
  /-- the thread runs the section, or calls or leaves the callback -/
  | act (t : Tid) (l : Label)
  /-- a timer expires -/
  | expire (l : Label)
  deriving DecidableEq, Repr

structure Threads where
  sys : System
  monitor : Option Tid
  callbackLock : AlarmPtr → RecursiveMutex Tid
  pc : Tid → Pc

namespace Threads

/-- The module after `lazy_initialize`, with its dispatcher thread started. -/
def init (isPeriodic : AlarmPtr → Bool) (capacity : QueuePtr → UInt64)
    (dispatcherThread : Tid) : Threads where
  sys := System.init isPeriodic capacity
  monitor := none
  callbackLock _ := none
  pc t := if t = dispatcherThread then .dispatchWait else .idle

/-- Where `t` goes on after the step `l` of `System`, which ends in `sys'`; `none`
when the point of `t` is not the one of `l`. -/
def afterAct (s : Threads) (t : Tid) (l : Label) (sys' : System) : Option Pc :=
  match s.pc t, l with
  | .setSection r, .set r' _ => if r' = r then some .setUnlock else none
  | .cancelSection a, .cancel a' _ => if a' = a then some (.cancelUnlock a) else none
  | .readySection q, .dequeue t' q' =>
      if t' = t ∧ q' = q then
        match sys'.consumer t with
        | .ready i => some (.readyCallbackLock i)
        | _ => some .readyReturn
      else none
  | .readyCallback _, .invoke t' _ => if t' = t then some .idle else none
  | .idle, .finish t' _ =>
      if t' = t then
        match s.sys.consumer t with
        | .running i _ => some (.readyCallbackUnlock i.alarm)
        | _ => none
      else none
  | .dispatchWait, .take => some .dispatchLock
  | .dispatchSection, .dispatch _ =>
      match sys'.dispatcher with
      | .enqueue _ => some .dispatchEnqueue
      | _ => some .dispatchUnlock
  | .dispatchEnqueue, .enqueue => some .dispatchUnlock
  | _, _ => none

def step (s : Threads) : ThreadLabel → Except Fault Threads
  | .call t c =>
      match s.pc t with
      | .idle =>
          -- a callback is called from the reactor and does not go back into it
          if c.isReady ∧ s.sys.consumer t ≠ .idle then .error .notEnabled
          else .ok { s with pc := Function.update s.pc t c.entry }
      | _ => .error .notEnabled
  | .lockMonitor t =>
      match (s.pc t).afterLockMonitor, s.monitor with
      | none, _ => .error .notEnabled
      | some _, some _ => .error .blocked
      | some v, none =>
          .ok { s with monitor := some t, pc := Function.update s.pc t v }
  | .unlockMonitor t =>
      match (s.pc t).afterUnlockMonitor with
      | none => .error .notEnabled
      | some v => .ok { s with monitor := none, pc := Function.update s.pc t v }
  | .lockCallback t =>
      match (s.pc t).afterLockCallback with
      | none => .error .notEnabled
      | some (a, v) =>
          match (s.callbackLock a).lock t with
          | none => .error .blocked
          | some lock =>
              .ok { s with
                callbackLock := Function.update s.callbackLock a lock
                pc := Function.update s.pc t v }
  | .unlockCallback t =>
      match (s.pc t).afterUnlockCallback with
      | none => .error .notEnabled
      | some (a, v) =>
          .ok { s with
            callbackLock := Function.update s.callbackLock a (s.callbackLock a).unlock
            pc := Function.update s.pc t v }
  | .act t l =>
      match s.sys.step l with
      | .error e => .error e
      | .ok sys' =>
          match s.afterAct t l sys' with
          | none => .error .notEnabled
          | some v => .ok { s with sys := sys', pc := Function.update s.pc t v }
  | .expire l =>
      if l.isExpiry then
        match s.sys.step l with
        | .error e => .error e
        | .ok sys' => .ok { s with sys := sys' }
      else .error .notEnabled

inductive StepCase (s : Threads) : ThreadLabel → Threads → Prop
  | call {t : Tid} {c : Call} (hidle : s.pc t = .idle)
      (hready : c.isReady = true → s.sys.consumer t = .idle) :
      StepCase s (.call t c) { s with pc := Function.update s.pc t c.entry }
  | lockMonitor {t : Tid} {v : Pc} (hv : (s.pc t).afterLockMonitor = some v)
      (hfree : s.monitor = none) :
      StepCase s (.lockMonitor t)
        { s with monitor := some t, pc := Function.update s.pc t v }
  | unlockMonitor {t : Tid} {v : Pc} (hv : (s.pc t).afterUnlockMonitor = some v) :
      StepCase s (.unlockMonitor t)
        { s with monitor := none, pc := Function.update s.pc t v }
  | lockCallback {t : Tid} {a : AlarmPtr} {v : Pc} {lock : RecursiveMutex Tid}
      (hv : (s.pc t).afterLockCallback = some (a, v))
      (hlock : (s.callbackLock a).lock t = some lock) :
      StepCase s (.lockCallback t) { s with
        callbackLock := Function.update s.callbackLock a lock
        pc := Function.update s.pc t v }
  | unlockCallback {t : Tid} {a : AlarmPtr} {v : Pc}
      (hv : (s.pc t).afterUnlockCallback = some (a, v)) :
      StepCase s (.unlockCallback t) { s with
        callbackLock := Function.update s.callbackLock a (s.callbackLock a).unlock
        pc := Function.update s.pc t v }
  | act {t : Tid} {l : Label} {sys' : System} {v : Pc} (hsys : s.sys.step l = .ok sys')
      (hv : s.afterAct t l sys' = some v) :
      StepCase s (.act t l) { s with sys := sys', pc := Function.update s.pc t v }
  | expire {l : Label} {sys' : System} (hl : l.isExpiry = true)
      (hsys : s.sys.step l = .ok sys') : StepCase s (.expire l) { s with sys := sys' }

theorem step_cases {s s' : Threads} {l : ThreadLabel} (h : s.step l = .ok s') :
    StepCase s l s' := by
  cases l with
  | call t c =>
      simp only [step] at h
      split at h
      · rename_i hidle
        split_ifs at h with hready
        cases h
        refine .call hidle ?_
        intro hc
        by_contra hconsumer
        exact hready ⟨hc, hconsumer⟩
      · cases h
  | lockMonitor t =>
      simp only [step] at h
      split at h
      · cases h
      · cases h
      · rename_i v hv hfree
        cases h
        exact .lockMonitor hv hfree
  | unlockMonitor t =>
      simp only [step] at h
      split at h
      · cases h
      · rename_i v hv
        cases h
        exact .unlockMonitor hv
  | lockCallback t =>
      simp only [step] at h
      split at h
      · cases h
      · rename_i a v hv
        split at h
        · cases h
        · rename_i lock hlock
          cases h
          exact .lockCallback hv hlock
  | unlockCallback t =>
      simp only [step] at h
      split at h
      · cases h
      · rename_i a v hv
        cases h
        exact .unlockCallback hv
  | act t l =>
      simp only [step] at h
      split at h
      · cases h
      · rename_i sys' hsys
        split at h
        · cases h
        · rename_i v hv
          cases h
          exact .act hsys hv
  | expire l =>
      simp only [step] at h
      split_ifs at h with hl
      split at h
      · cases h
      · rename_i sys' hsys
        cases h
        exact .expire hl hsys

/-- Which point of a thread belongs to which step of `System`. -/
inductive ActCase (s : Threads) (t : Tid) (sys' : System) : Label → Pc → Prop
  | set {r : SetArgs} {env : SetEnv} (hpc : s.pc t = .setSection r) :
      ActCase s t sys' (.set r env) .setUnlock
  | cancel {a : AlarmPtr} {env : RescheduleEnv} (hpc : s.pc t = .cancelSection a) :
      ActCase s t sys' (.cancel a env) (.cancelUnlock a)
  | dequeueSome {q : QueuePtr} {i : Instance} (hpc : s.pc t = .readySection q)
      (hready : sys'.consumer t = .ready i) :
      ActCase s t sys' (.dequeue t q) (.readyCallbackLock i)
  | dequeueNone {q : QueuePtr} (hpc : s.pc t = .readySection q)
      (hready : ∀ i, sys'.consumer t ≠ .ready i) :
      ActCase s t sys' (.dequeue t q) .readyReturn
  | invoke {i : Instance} {t0 : PeriodMs} (hpc : s.pc t = .readyCallback i) :
      ActCase s t sys' (.invoke t t0) .idle
  | finish {i : Instance} {t0 t1 : PeriodMs} (hpc : s.pc t = .idle)
      (hrunning : s.sys.consumer t = .running i t0) :
      ActCase s t sys' (.finish t t1) (.readyCallbackUnlock i.alarm)
  | take (hpc : s.pc t = .dispatchWait) : ActCase s t sys' .take .dispatchLock
  | dispatchSome {env : DispatchEnv} {a : AlarmPtr} (hpc : s.pc t = .dispatchSection)
      (htransit : sys'.dispatcher = .enqueue a) :
      ActCase s t sys' (.dispatch env) .dispatchEnqueue
  | dispatchNone {env : DispatchEnv} (hpc : s.pc t = .dispatchSection)
      (htransit : ∀ a, sys'.dispatcher ≠ .enqueue a) :
      ActCase s t sys' (.dispatch env) .dispatchUnlock
  | enqueue (hpc : s.pc t = .dispatchEnqueue) : ActCase s t sys' .enqueue .dispatchUnlock

theorem act_cases {s : Threads} {t : Tid} {l : Label} {sys' : System} {v : Pc}
    (h : s.afterAct t l sys' = some v) : ActCase s t sys' l v := by
  unfold afterAct at h
  split at h
  · rename_i r r' env hpc
    split_ifs at h with hr
    cases h
    subst hr
    exact .set hpc
  · rename_i a a' env hpc
    split_ifs at h with ha
    cases h
    subst ha
    exact .cancel hpc
  · rename_i q t' q' hpc
    split_ifs at h with htq
    obtain ⟨rfl, rfl⟩ := htq
    split at h
    · rename_i i hready
      cases h
      exact .dequeueSome hpc hready
    · rename_i hready
      cases h
      exact .dequeueNone hpc hready
  · rename_i i t' t0 hpc
    split_ifs at h with ht
    cases h
    subst ht
    exact .invoke hpc
  · rename_i t' t1 hpc
    split_ifs at h with ht
    subst ht
    split at h
    · rename_i i t0 hrunning
      cases h
      exact .finish hpc hrunning
    · cases h
  · rename_i hpc
    cases h
    exact .take hpc
  · rename_i env hpc
    split at h
    · rename_i a htransit
      cases h
      exact .dispatchSome hpc htransit
    · rename_i htransit
      cases h
      exact .dispatchNone hpc htransit
  · rename_i hpc
    cases h
    exact .enqueue hpc
  · cases h

/-! ## The threads run the system -/

def Lift (guard : System → Label → Prop) (s : Threads) : ThreadLabel → Prop
  | .act _ l | .expire l => guard s.sys l
  | _ => True

instance (guard : System → Label → Prop) [∀ s l, Decidable (guard s l)] (s : Threads)
    (l : ThreadLabel) : Decidable (Lift guard s l) :=
  match l with
  | .act _ l | .expire l => inferInstanceAs (Decidable (guard s.sys l))
  | .call _ _ | .lockMonitor _ | .unlockMonitor _ | .lockCallback _
  | .unlockCallback _ => isTrue trivial

/-- What the locks let through is a run of `System`. -/
theorem reachable_sys {guard : System → Label → Prop} {s₀ s : Threads}
    (h : Reachable (Guarded (Lift guard) (Next step)) s₀ s) :
    Reachable (Guarded guard (Next System.step)) s₀.sys s.sys := by
  refine h.invariant (I := fun s => Reachable (Guarded guard (Next System.step)) s₀.sys
    s.sys) ?_ (.refl s₀.sys)
  rintro s l s' hs ⟨hguard, hstep⟩
  cases step_cases hstep with
  | call hidle hready => exact hs
  | lockMonitor hv hfree => exact hs
  | unlockMonitor hv => exact hs
  | lockCallback hv hlock => exact hs
  | unlockCallback hv => exact hs
  | act hsys hv => exact hs.snoc ⟨hguard, hsys⟩
  | expire hl hsys => exact hs.snoc ⟨hguard, hsys⟩

end Threads

end Alarm

end Osi
