import Osi.Alarm.Deadline
import Osi.Collection.Last

/-!
# The history of a run

The alarm objects forget: a thread that serves a queue reads `alarm->callback`
when it dequeues, long after the alarm was set and dispatched. The history
remembers. This module sorts the steps by what they add to the history and
relates the fields of an alarm to the last event that assigned them.
-/

namespace Osi

namespace Alarm

open Transition AlarmState Collection

namespace Event

def Sets (a : AlarmPtr) : Event → Prop
  | set r _ _ => r.alarm = a
  | _ => False

def Cancels (a : AlarmPtr) : Event → Prop
  | cancel b => b = a
  | _ => False

def Dispatches (a : AlarmPtr) : Event → Prop
  | dispatch b _ => b = a
  | _ => False

def Dequeues (a : AlarmPtr) : Event → Prop
  | dequeue _ _ i => i.alarm = a
  | _ => False

def OfThread (t : Tid) : Event → Prop
  | dequeue t' _ _ => t' = t
  | invoke t' _ _ => t' = t
  | _ => False

def Moves (a : AlarmPtr) (e : Event) : Prop := e.Dispatches a ∨ e.Dequeues a

/-- The event assigns `alarm->callback` of `a`: serving a single-shot alarm
resets it. -/
def Assigns (isPeriodic : AlarmPtr → Bool) (a : AlarmPtr) (e : Event) : Prop :=
  e.Sets a ∨ e.Cancels a ∨ (isPeriodic a = false ∧ e.Dequeues a)

theorem not_assigns_set {isPeriodic : AlarmPtr → Bool} {a : AlarmPtr} {r : SetArgs}
    (hne : a ≠ r.alarm) (t d : PeriodMs) : ¬ (Event.set r t d).Assigns isPeriodic a := by
  rintro (hra | hfalse | ⟨_, hfalse⟩)
  · exact hne hra.symm
  · exact hfalse
  · exact hfalse

end Event

namespace System

/-- What a step adds to the history, with the section that it runs. -/
inductive Progress : System → Label → System → Prop
  | set {s s' : System} {r : SetArgs} {env : SetEnv}
      (hm : s.mod.alarmSetInternal r env = .ok s'.mod)
      (hx : s.inTransit = none) (hx' : s'.inTransit = none)
      (hconsumer : s'.consumer = s.consumer)
      (hhist : s'.hist =
        s.hist ++ [.set r env.creationTime (s'.mod.alarm r.alarm).deadline]) :
      Progress s (.set r env) s'
  | cancel {s s' : System} {a : AlarmPtr} {env : RescheduleEnv}
      (hm : s'.mod = s.mod.alarmCancel a env)
      (hx : s.inTransit = none) (hx' : s'.inTransit = none)
      (hconsumer : s'.consumer = s.consumer) (hhist : s'.hist = s.hist ++ [.cancel a]) :
      Progress s (.cancel a env) s'
  | dispatch {s s' : System} {a : AlarmPtr} {env : DispatchEnv}
      (hm : s.mod.callbackDispatch env = .ok (s'.mod, some a))
      (hx : s.inTransit = none) (hx' : s'.inTransit = some a)
      (hconsumer : s'.consumer = s.consumer) (hhist : s'.hist = s.hist) :
      Progress s (.dispatch env) s'
  | enqueue {s s' : System} {a : AlarmPtr}
      (hm : s.mod.callbackDispatchEnqueue a = .ok s'.mod)
      (hx : s.inTransit = some a) (hx' : s'.inTransit = none)
      (hconsumer : s'.consumer = s.consumer)
      (hhist : s'.hist =
        s.hist ++ [.dispatch a (dispatchedDeadline (s'.mod.alarm a))]) :
      Progress s .enqueue s'
  | dequeue {s s' : System} {t : Tid} {q : QueuePtr} {i : Instance}
      (hm : s.mod.alarmQueueReady q = (s'.mod, some i))
      (hx : s.inTransit = none) (hx' : s'.inTransit = none)
      (hidle : s.consumer t = .idle)
      (hconsumer : s'.consumer = Function.update s.consumer t (.ready i))
      (hhist : s'.hist = s.hist ++ [.dequeue t q i]) :
      Progress s (.dequeue t q) s'
  | invoke {s s' : System} {t : Tid} {t0 : PeriodMs} {i : Instance}
      (hm : s'.mod = s.mod) (hx : s'.inTransit = s.inTransit)
      (hready : s.consumer t = .ready i)
      (hconsumer : s'.consumer = Function.update s.consumer t (.running i t0))
      (hhist : s'.hist = s.hist ++ [.invoke t i t0]) :
      Progress s (.invoke t t0) s'
  | finish {s s' : System} {t : Tid} {t0 t1 : PeriodMs} {i : Instance}
      (hm : SameAlarms s.mod s'.mod) (hx : s'.inTransit = s.inTransit)
      (hrunning : s.consumer t = .running i t0)
      (hconsumer : s'.consumer = Function.update s.consumer t .idle)
      (hhist : s'.hist = s.hist) : Progress s (.finish t t1) s'
  | same {s s' : System} {l : Label} (hm : SameAlarms s.mod s'.mod)
      (hx : s'.inTransit = s.inTransit) (hconsumer : s'.consumer = s.consumer)
      (hhist : s'.hist = s.hist) : Progress s l s'

theorem step_progress {s s' : System} {l : Label} (h : s.step l = .ok s') :
    Progress s l s' := by
  cases step_cases h with
  | set hquiet hmod => exact .set hmod hquiet hquiet rfl rfl
  | cancel hquiet => exact .cancel rfl hquiet hquiet rfl rfl
  | take hwaiting _ =>
      exact .same (.of_eq rfl rfl rfl) (by simp [inTransit, hwaiting]) rfl (by simp)
  | dispatchNone htoken hmod =>
      refine .same ?_ (by simp [inTransit, htoken]) rfl (by simp)
      rw [(callbackDispatch_none hmod).1]
      exact .rescheduleRootAlarm _ _
  | dispatchSome htoken hmod =>
      exact .dispatch hmod (by simp [inTransit, htoken]) rfl rfl (by simp)
  | enqueue htransit hmod =>
      exact .enqueue hmod (by simp [inTransit, htransit]) rfl rfl rfl
  | dequeueNone _ _ hmod =>
      refine .same ?_ rfl rfl (by simp)
      rw [(alarmQueueReady_none hmod).1]
      exact .of_eq rfl rfl rfl
  | dequeueSome hquiet hidle hmod => exact .dequeue hmod hquiet hquiet hidle rfl rfl
  | invoke hready => exact .invoke rfl rfl hready rfl rfl
  | @finish t t1 t0 i hrunning =>
      exact .finish (.modify_stats s.mod i.alarm
        fun stats => updateSchedulingStats stats t0 i.deadline (t1 - t0))
        rfl hrunning rfl (by simp)
  | expireTimer _ => exact .same (.of_eq rfl rfl rfl) rfl rfl (by simp)
  | expireWakeupTimer _ => exact .same (.of_eq rfl rfl rfl) rfl rfl (by simp)

end System

/-! ## The kind of an alarm -/

theorem isPeriodic_of_reachable {guard : System → Label → Prop}
    {isPeriodic : AlarmPtr → Bool} {capacity : QueuePtr → UInt64} {s : System}
    (h : Reachable (Guarded guard (Next System.step))
      (System.init isPeriodic capacity) s) (a : AlarmPtr) :
    (s.mod.alarm a).isPeriodic = isPeriodic a := by
  refine h.invariant (I := fun s => (s.mod.alarm a).isPeriodic = isPeriodic a) ?_ rfl
  rintro s l s' hs ⟨_, hstep⟩
  rw [(System.step_effect hstep).isPeriodic_eq a, hs]

/-! ## The last assignment -/

/-- The fields of an alarm that a set determines until the next assignment. A
periodic alarm changes its deadline at every dispatch. -/
structure SameFields (al al' : AlarmT) : Prop where
  isPeriodic : al'.isPeriodic = al.isPeriodic
  callback : al'.callback = al.callback
  data : al'.data = al.data
  creationTime : al'.creationTime = al.creationTime
  period : al'.period = al.period
  deadline : al.isPeriodic = false → al'.deadline = al.deadline

theorem SameFields.refl (al : AlarmT) : SameFields al al :=
  ⟨rfl, rfl, rfl, rfl, rfl, fun _ => rfl⟩

theorem SameAlarms.sameFields {m m' : AlarmState} (h : SameAlarms m m') (a : AlarmPtr) :
    SameFields (m.alarm a) (m'.alarm a) := by
  obtain ⟨stats, ha⟩ := h.alarm a
  rw [ha]
  exact ⟨rfl, rfl, rfl, rfl, rfl, fun _ => rfl⟩

/-- The dispatcher changes only what a set does not determine. -/
theorem callbackDispatch_sameFields {m m' : AlarmState} {env : DispatchEnv}
    {a : AlarmPtr} (hm : m.callbackDispatch env = .ok (m', some a)) (b : AlarmPtr) :
    SameFields (m.alarm b) (m'.alarm b) := by
  obtain ⟨rest, _, _, ⟨_, halarm, _⟩ | ⟨hper, ⟨stats, halarm⟩, _⟩⟩ :=
    callbackDispatch_some hm
  · rw [halarm]
    exact .refl _
  · rw [halarm]
    by_cases hb : b = a
    · subst hb
      rw [Function.update_self]
      exact ⟨rfl, rfl, rfl, rfl, rfl, fun hsingle => absurd (hper.symm.trans hsingle)
        (by simp)⟩
    · rw [Function.update_of_ne hb]
      exact .refl _

def Agrees (al : AlarmT) : Event → Prop
  | .set r t0 d =>
      al.callback = some r.cb ∧ al.data = r.data ∧ al.creationTime = t0 ∧
        al.period = r.intervalMs ∧ (al.isPeriodic = false → al.deadline = d)
  | _ => al.callback = none

theorem Agrees.congr {al al' : AlarmT} {e : Event} (h : Agrees al e)
    (hsame : SameFields al al') : Agrees al' e := by
  cases e with
  | set r t0 d =>
      obtain ⟨hcb, hdata, hct, hperiod, hdeadline⟩ := h
      refine ⟨hsame.callback.trans hcb, hsame.data.trans hdata,
        hsame.creationTime.trans hct, hsame.period.trans hperiod, ?_⟩
      intro hper
      have hper' := hsame.isPeriodic.symm.trans hper
      exact (hsame.deadline hper').trans (hdeadline hper')
  | _ => exact hsame.callback.trans h

/-- Every alarm is as the last event that assigned it has left it, and is
scheduled only by a set. -/
structure Assigned (isPeriodic : AlarmPtr → Bool) (s : System) : Prop where
  agrees : ∀ a n e, IsLast (Event.Assigns isPeriodic a) s.hist n e →
    Agrees (s.mod.alarm a) e
  armed : ∀ a, (s.mod.alarm a).callback.isSome → ∃ n r t0 d,
    IsLast (Event.Assigns isPeriodic a) s.hist n (.set r t0 d)

namespace Assigned

variable {isPeriodic : AlarmPtr → Bool} {s s' : System}

theorem congr (h : Assigned isPeriodic s) (hhist : s'.hist = s.hist)
    (hsame : ∀ a, SameFields (s.mod.alarm a) (s'.mod.alarm a)) :
    Assigned isPeriodic s' where
  agrees a n e he := by
    rw [hhist] at he
    exact (h.agrees a n e he).congr (hsame a)
  armed a ha := by
    rw [(hsame a).callback] at ha
    rw [hhist]
    exact h.armed a ha

/-- One more event: the alarms it assigns agree with it, and the others keep
their fields. -/
theorem concat (h : Assigned isPeriodic s) {e : Event}
    (hhist : s'.hist = s.hist ++ [e])
    (hothers : ∀ a, ¬ e.Assigns isPeriodic a →
      SameFields (s.mod.alarm a) (s'.mod.alarm a))
    (hself : ∀ a, e.Assigns isPeriodic a → Agrees (s'.mod.alarm a) e) :
    Assigned isPeriodic s' where
  agrees a n e' he' := by
    rw [hhist] at he'
    by_cases he : e.Assigns isPeriodic a
    · obtain ⟨_, rfl⟩ := (IsLast.concat_iff_of he).mp he'
      exact hself a he
    · rw [IsLast.concat_iff_of_not he] at he'
      exact (h.agrees a n e' he').congr (hothers a he)
  armed a ha := by
    rw [hhist]
    by_cases he : e.Assigns isPeriodic a
    · have hagrees := hself a he
      cases e with
      | set r t0 d => exact ⟨s.hist.length, r, t0, d, .concat_self he⟩
      | _ =>
          have hnone : (s'.mod.alarm a).callback = none := hagrees
          exact absurd ha (by simp [hnone])
    · rw [(hothers a he).callback] at ha
      obtain ⟨n, r, t0, d, hlast⟩ := h.armed a ha
      exact ⟨n, r, t0, d, (IsLast.concat_iff_of_not he).mpr hlast⟩

theorem step {l : Label} (h : Assigned isPeriodic s)
    (hkind : ∀ a, (s.mod.alarm a).isPeriodic = isPeriodic a)
    (hprogress : System.Progress s l s') : Assigned isPeriodic s' := by
  cases hprogress with
  | @set _ r env hm _ _ _ hhist =>
      obtain ⟨⟨stats, halarm⟩, _⟩ := alarmSetInternal_ok hm
      refine h.concat hhist ?_ ?_
      · intro a ha
        have hne : a ≠ r.alarm := fun hra => ha (Or.inl hra.symm)
        rw [halarm, Function.update_of_ne hne]
        exact .refl _
      · rintro a (hra | hfalse | ⟨_, hfalse⟩)
        · obtain rfl : r.alarm = a := hra
          refine ⟨?_, ?_, ?_, ?_, fun _ => rfl⟩
          all_goals rw [halarm, Function.update_self]; rfl
        · exact hfalse.elim
        · exact hfalse.elim
  | @cancel _ b env hm _ _ _ hhist =>
      obtain ⟨⟨stats, halarm⟩, _⟩ := alarmCancel_spec s.mod b env
      rw [← hm] at halarm
      refine h.concat hhist ?_ ?_
      · intro a ha
        have hne : a ≠ b := fun hab => ha (Or.inr (Or.inl hab.symm))
        rw [halarm, Function.update_of_ne hne]
        exact .refl _
      · rintro a (hfalse | hba | ⟨_, hfalse⟩)
        · exact hfalse.elim
        · obtain rfl : b = a := hba
          change (s'.mod.alarm b).callback = none
          rw [halarm, Function.update_self]
        · exact hfalse.elim
  | dispatch hm _ _ _ hhist =>
      exact h.congr hhist (callbackDispatch_sameFields hm)
  | enqueue hm _ _ _ hhist =>
      refine h.concat hhist ?_ ?_
      · intro a _
        rw [(callbackDispatchEnqueue_ok hm).1]
        exact .refl _
      · rintro a (hfalse | hfalse | ⟨_, hfalse⟩) <;> exact hfalse.elim
  | @dequeue _ t q i hm _ _ _ _ hhist =>
      obtain ⟨_, _, halarm, _⟩ := alarmQueueReady_some hm
      refine h.concat hhist ?_ ?_
      · intro a ha
        rw [alarmQueueReady_alarm_eq hm]
        · exact .refl _
        · rintro rfl
          by_contra hsingle
          rw [hkind, Bool.not_eq_true] at hsingle
          exact ha (Or.inr (Or.inr ⟨hsingle, rfl⟩))
      · rintro a (hfalse | hfalse | ⟨hsingle, hia⟩)
        · exact hfalse.elim
        · exact hfalse.elim
        · obtain rfl : i.alarm = a := hia
          change (s'.mod.alarm i.alarm).callback = none
          rw [halarm, Function.update_self, serviced, if_neg (by simp [hkind, hsingle])]
  | invoke hm _ _ _ hhist =>
      refine h.concat hhist ?_ ?_
      · intro a _
        rw [hm]
        exact .refl _
      · rintro a (hfalse | hfalse | ⟨_, hfalse⟩) <;> exact hfalse.elim
  | finish hm _ _ _ hhist => exact h.congr hhist hm.sameFields
  | same hm _ _ hhist => exact h.congr hhist hm.sameFields

end Assigned

theorem assigned_of_reachable {guard : System → Label → Prop}
    {isPeriodic : AlarmPtr → Bool} {capacity : QueuePtr → UInt64} {s : System}
    (h : Reachable (Guarded guard (Next System.step))
      (System.init isPeriodic capacity) s) : Assigned isPeriodic s := by
  refine h.induct (I := Assigned isPeriodic) ⟨?_, ?_⟩ ?_
  · intro a n e he
    exact absurd he.get (by simp [System.init])
  · intro a ha
    exact absurd ha (by simp [System.init, AlarmState.init, alarmNewInternal])
  · rintro s l s' hreach hs ⟨_, hstep⟩
    exact hs.step (isPeriodic_of_reachable hreach) (System.step_progress hstep)

end Alarm

end Osi
