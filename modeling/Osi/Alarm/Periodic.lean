import Osi.Alarm.History
import Osi.Alarm.Timely
import Mathlib.Data.Nat.ModEq

/-!
# Periodic alarms do not drift

A periodic alarm that was set at the time `c` with the period `P` has its instants at
`c + P`, `c + 2 P` and so on. `schedule_next_instance` looks at the time only to find the
next of them, so a dispatch that is late shifts nothing: it leaves out the instants that
have passed. `deadlines a` collects, along a run, the calls of `schedule_next_instance` for
the alarm `a` since its last set, each with the time at which it was made and the deadline
that it computed; `queued a` are the deadlines with which the alarm was put in its queue.
-/

namespace Osi

namespace Alarm

open Transition AlarmState Collection

/-! ## The next instant -/

def NextInstant (c P t d : ℕ) : Prop := IsLeast {g | ∃ k, 1 ≤ k ∧ g = c + k * P ∧ t < g} d

theorem nextInstant_add_sub_mod {c P t : ℕ} (hP : 0 < P) (hc : c ≤ t) :
    NextInstant c P t (t + (P - (t - c) % P)) := by
  have hmod : (t - c) % P < P := Nat.mod_lt _ hP
  have hdiv : P * ((t - c) / P) + (t - c) % P = t - c := Nat.div_add_mod (t - c) P
  have heq : t + (P - (t - c) % P) = c + ((t - c) / P + 1) * P := by
    rw [Nat.add_mul, Nat.one_mul, Nat.mul_comm]
    omega
  refine ⟨⟨(t - c) / P + 1, Nat.le_add_left 1 _, heq, by omega⟩, ?_⟩
  rintro g ⟨k, -, rfl, hlt⟩
  rw [heq]
  -- an instant with a smaller `k` is not later than `t`
  have hk : (t - c) / P < k := by
    by_contra hle
    have hmul : k * P ≤ (t - c) / P * P := Nat.mul_le_mul_right P (Nat.not_lt.mp hle)
    rw [Nat.mul_comm ((t - c) / P)] at hmul
    omega
  have hmul : ((t - c) / P + 1) * P ≤ k * P := Nat.mul_le_mul_right P hk
  omega

theorem NextInstant.lt {c P t d : ℕ} (h : NextInstant c P t d) : t < d := by
  obtain ⟨⟨k, -, -, hlt⟩, -⟩ := h
  exact hlt

theorem NextInstant.modEq {c P t d : ℕ} (h : NextInstant c P t d) : d ≡ c [MOD P] := by
  obtain ⟨⟨k, -, rfl, -⟩, -⟩ := h
  exact Nat.add_mul_modulus_modEq_iff.mpr rfl

/-- `schedule_next_instance` computes the next instant, which is at most a period away. -/
theorem nextInstant_nextDeadline {alarm : AlarmT} {t : PeriodMs}
    (hcreated : alarm.creationTime ≤ t) (hper : alarm.isPeriodic = true)
    (hperiod : alarm.period ≠ 0) (hfits : t.toNat + alarm.period.toNat < 2 ^ 64) :
    NextInstant alarm.creationTime.toNat alarm.period.toNat t.toNat
        (nextDeadline alarm t).toNat ∧
      (nextDeadline alarm t).toNat ≤ t.toNat + alarm.period.toNat := by
  have hpos : 0 < alarm.period.toNat :=
    Nat.pos_of_ne_zero fun hzero => hperiod (UInt64.toNat_inj.mp hzero)
  have hlt := (msIntoPeriod_bound hcreated hper hperiod).1
  have hsub := UInt64.toNat_sub_of_le alarm.period (msIntoPeriod alarm t)
    (UInt64.le_iff_toNat_le.mpr hlt.le)
  have hdeadline : (nextDeadline alarm t).toNat =
      t.toNat + (alarm.period.toNat - (msIntoPeriod alarm t).toNat) := by
    rw [nextDeadline_toNat (by unfold System.DeadlineFits; omega), hsub]
  have hmod : (msIntoPeriod alarm t).toNat =
      (t.toNat - alarm.creationTime.toNat) % alarm.period.toNat := by
    rw [msIntoPeriod, if_pos hper, UInt64.toNat_mod, UInt64.toNat_sub_of_le _ _ hcreated]
  refine ⟨?_, by omega⟩
  rw [hdeadline, hmod]
  exact nextInstant_add_sub_mod hpos (UInt64.le_iff_toNat_le.mp hcreated)

/-! ## The deadlines of one set -/

namespace System

/-- The call of `schedule_next_instance` on a periodic alarm `a` that a step makes: the
alarm it computes the deadline of, and the time. -/
def schedulingOf (a : AlarmPtr) (m : AlarmState) : Label → Option (AlarmT × PeriodMs)
  | .set r env =>
      if r.alarm = a then some (assigned (m.alarm a) r env, env.schedule.now) else none
  | .dispatch env =>
      match m.alarms with
      | [] => none
      | b :: _ =>
          if b = a ∧ (m.alarm a).deadline ≤ env.now then some (m.alarm a, env.schedule.now)
          else none
  | _ => none

/-- The calls since the last set, with their times and deadlines, after one more step. -/
def addDeadline (a : AlarmPtr) (m : AlarmState) (l : Label)
    (ds : List (PeriodMs × PeriodMs)) : List (PeriodMs × PeriodMs) :=
  match schedulingOf a m l, l with
  | none, _ => ds
  | some (al, t), .set _ _ => [(t, nextDeadline al t)]
  | some (al, t), _ => ds ++ [(t, nextDeadline al t)]

def follow (a : AlarmPtr) (p : System × List (PeriodMs × PeriodMs)) (l : Label) :
    System × List (PeriodMs × PeriodMs) :=
  match p.1.step l with
  | .error _ => p
  | .ok s' => (s', addDeadline a p.1.mod l p.2)

/-- The calls of `schedule_next_instance` for `a` since its last set, along the labels of a
run. -/
def deadlines (a : AlarmPtr) (s : System) (ls : List Label) : List (PeriodMs × PeriodMs) :=
  (ls.foldl (follow a) (s, [])).2

/-- The deadlines with which `a` was put in its queue since its last set, after one more
event. -/
def addDispatched (a : AlarmPtr) (ds : List PeriodMs) : Event → List PeriodMs
  | .set r _ _ => if r.alarm = a then [] else ds
  | .dispatch b d => if b = a then ds ++ [d] else ds
  | _ => ds

/-- The deadlines with which the periodic alarm `a` was taken from the list since its last
set to be put in its queue. -/
def queued (a : AlarmPtr) (s : System) : List PeriodMs :=
  s.hist.foldl (addDispatched a) [] ++
    if s.inTransit = some a then [(s.mod.alarm a).prevDeadline] else []

/-- The clock does not go back, and at every call of `schedule_next_instance` for `a` the
time plus the period stays below `2 ^ 64`. -/
def Steady (a : AlarmPtr) (s : System) (l : Label) : Prop :=
  ClockMonotone s l ∧
    ∀ call ∈ schedulingOf a s.mod l, call.2.toNat + call.1.period.toNat < 2 ^ 64

instance (a : AlarmPtr) (s : System) (l : Label) : Decidable (Steady a s l) :=
  inferInstanceAs (Decidable (_ ∧ _))

/-! ## One step -/

/-- What a step does to a periodic alarm: it sets it, it re-arms it at a dispatch, or it
computes no deadline of it. -/
inductive Course (a : AlarmPtr) (s : System) (l : Label) (s' : System) : Prop
  | set {r : SetArgs} {env : SetEnv} (hl : l = .set r env) (ha : r.alarm = a)
      (hperiod : r.intervalMs ≠ 0)
      (hcreated : (s'.mod.alarm a).creationTime = env.creationTime)
      (hperiod' : (s'.mod.alarm a).period = r.intervalMs)
      (hdeadline : (s'.mod.alarm a).deadline =
        nextDeadline (assigned (s.mod.alarm a) r env) env.schedule.now)
      (hqueued : s'.queued a = [])
      (hhist : s'.hist =
        s.hist ++ [.set r env.creationTime (s'.mod.alarm a).deadline])
  | rearm {env : DispatchEnv} {rest : List AlarmPtr} (hl : l = .dispatch env)
      (hcons : s.mod.alarms = a :: rest) (hdue : (s.mod.alarm a).deadline ≤ env.now)
      (hperiod : (s.mod.alarm a).period ≠ 0)
      (hcreated : (s'.mod.alarm a).creationTime = (s.mod.alarm a).creationTime)
      (hperiod' : (s'.mod.alarm a).period = (s.mod.alarm a).period)
      (hdeadline : (s'.mod.alarm a).deadline = nextDeadline (s.mod.alarm a) env.schedule.now)
      (hqueued : s'.queued a = s.queued a ++ [(s.mod.alarm a).deadline])
      (hhist : s'.hist = s.hist)
  | other (hnone : schedulingOf a s.mod l = none)
      (hcreated : (s'.mod.alarm a).creationTime = (s.mod.alarm a).creationTime)
      (hperiod : (s'.mod.alarm a).period = (s.mod.alarm a).period)
      (hlisted : a ∈ s'.mod.alarms → a ∈ s.mod.alarms ∧
        (s'.mod.alarm a).deadline = (s.mod.alarm a).deadline)
      (hqueued : s'.queued a = s.queued a)
      (hhist : ∀ n e, IsLast (Event.Sets a) s'.hist n e ↔ IsLast (Event.Sets a) s.hist n e)

variable {a : AlarmPtr} {s s' : System} {l : Label}

theorem queued_eq (hx : s.inTransit ≠ some a) :
    s.queued a = s.hist.foldl (addDispatched a) [] := by
  rw [queued, if_neg hx, List.append_nil]

theorem Quiet.inTransit_ne (h : s.Quiet) (a : AlarmPtr) : s.inTransit ≠ some a := by
  rw [show s.inTransit = none from h]
  exact (Option.some_ne_none a).symm

/-- An event that is neither a set nor a dispatch of the alarm changes nothing. -/
theorem Course.of_event {e : Event} (hnone : schedulingOf a s.mod l = none)
    (halarm : (s'.mod.alarm a).creationTime = (s.mod.alarm a).creationTime ∧
      (s'.mod.alarm a).period = (s.mod.alarm a).period ∧
      (s'.mod.alarm a).prevDeadline = (s.mod.alarm a).prevDeadline)
    (hlisted : a ∈ s'.mod.alarms → a ∈ s.mod.alarms ∧
      (s'.mod.alarm a).deadline = (s.mod.alarm a).deadline)
    (hx : s'.inTransit = s.inTransit) (hhist : s'.hist = s.hist ++ [e])
    (hset : ¬ e.Sets a) (hdispatch : ¬ e.Dispatches a) : Course a s l s' := by
  obtain ⟨hcreated, hperiod, hprev⟩ := halarm
  refine .other hnone hcreated hperiod hlisted ?_ ?_
  · have hfold : addDispatched a (s.hist.foldl (addDispatched a) []) e =
        s.hist.foldl (addDispatched a) [] := by
      cases e with
      | set r time deadline => exact if_neg hset
      | dispatch b d => exact if_neg hdispatch
      | cancel b => rfl
      | dequeue t q i => rfl
      | invoke t i time => rfl
    rw [queued, queued, hx, hprev, hhist, List.foldl_append, List.foldl_cons, List.foldl_nil,
      hfold]
  · intro n e'
    rw [hhist, IsLast.concat_iff_of_not hset]

/-- A step that leaves the alarms and the history alone. -/
theorem Course.of_same (hnone : schedulingOf a s.mod l = none)
    (hsame : SameAlarms s.mod s'.mod) (hx : s'.inTransit = s.inTransit)
    (hhist : s'.hist = s.hist) : Course a s l s' := by
  obtain ⟨stats, halarm⟩ := hsame.alarm a
  refine .other hnone ?_ ?_ ?_ ?_ ?_
  · rw [halarm]
  · rw [halarm]
  · intro ha
    rw [halarm]
    exact ⟨hsame.alarms ▸ ha, rfl⟩
  · rw [queued, queued, hx, hhist, halarm]
  · intro n e
    rw [hhist]

theorem Course.of_set {r : SetArgs} {env : SetEnv} {mod : AlarmState} (hquiet : s.Quiet)
    (hper : (s.mod.alarm a).isPeriodic = true)
    (hmod : s.mod.alarmSetInternal r env = .ok mod) :
    Course a s (.set r env) ({ s with mod := mod }.record (.set r env)
      [.set r env.creationTime (mod.alarm r.alarm).deadline]) := by
  obtain ⟨⟨stats, halarm⟩, halarms, -⟩ := alarmSetInternal_ok hmod
  by_cases hra : r.alarm = a
  · subst hra
    have hself : mod.alarm r.alarm =
        { scheduled (assigned (s.mod.alarm r.alarm) r env) env.schedule.now with
          stats := stats } := by
      rw [halarm, Function.update_self]
    refine .set rfl rfl (alarmSetInternal_period hmod hper) ?_ ?_ ?_ ?_ rfl
    · rw [record_mod, hself]
      rfl
    · rw [record_mod, hself]
      rfl
    · rw [record_mod, hself]
      rfl
    · rw [queued_eq, record_hist, List.foldl_append]
      · exact if_pos rfl
      · exact Quiet.inTransit_ne hquiet r.alarm
  · have hsame : mod.alarm a = s.mod.alarm a := by
      rw [halarm, Function.update_of_ne (Ne.symm hra)]
    refine .of_event (if_neg hra) ?_ ?_ rfl rfl hra id
    · rw [record_mod, hsame]
      exact ⟨rfl, rfl, rfl⟩
    · intro ha
      rw [record_mod, halarms, mem_inserted] at ha
      rw [record_mod, hsame]
      exact ⟨List.mem_of_mem_erase (ha.resolve_left (Ne.symm hra)), rfl⟩

theorem Course.of_cancel {b : AlarmPtr} {env : RescheduleEnv} (hquiet : s.Quiet)
    (hnodup : s.mod.alarms.Nodup) :
    Course a s (.cancel b env)
      ({ s with mod := s.mod.alarmCancel b env }.record (.cancel b env) [.cancel b]) := by
  obtain ⟨⟨stats, halarm⟩, halarms, -⟩ := alarmCancel_spec s.mod b env
  refine .other rfl ?_ ?_ ?_ ?_ ?_
  · exact field_eq_of_update AlarmT.creationTime halarm rfl a
  · exact field_eq_of_update AlarmT.period halarm rfl a
  · intro ha
    rw [record_mod, halarms, hnodup.mem_erase_iff] at ha
    rw [record_mod, halarm, Function.update_of_ne ha.1]
    exact ⟨ha.2, rfl⟩
  · rw [queued_eq (Quiet.inTransit_ne hquiet a), queued_eq, record_hist, List.foldl_append]
    · rfl
    · exact Quiet.inTransit_ne hquiet a
  · intro n e
    rw [record_hist, IsLast.concat_iff_of_not id]

theorem Course.of_dispatch {env : DispatchEnv} {mod : AlarmState} {b : AlarmPtr}
    (hw : Wellformed s.mod s.inTransit) (hper : (s.mod.alarm a).isPeriodic = true)
    (htoken : s.dispatcher = .token)
    (hmod : s.mod.callbackDispatch env = .ok (mod, some b)) :
    Course a s (.dispatch env)
      ({ s with mod := mod, dispatcher := .enqueue b }.record (.dispatch env) []) := by
  have hx : s.inTransit ≠ some a := by simp [inTransit, htoken]
  have hhist : ({ s with mod := mod, dispatcher := .enqueue b }.record
      (.dispatch env) []).hist = s.hist := List.append_nil _
  have hperiod := callbackDispatch_period hmod
  obtain ⟨rest, hcons, hdue, hkind⟩ := callbackDispatch_some hmod
  by_cases hba : b = a
  · subst hba
    obtain ⟨hsingle, -⟩ | ⟨-, ⟨stats, halarm⟩, -⟩ := hkind
    · exact absurd (hper.symm.trans hsingle) (by simp)
    · have hself : mod.alarm b =
          { rearmed (s.mod.alarm b) env.schedule.now with stats := stats } := by
        rw [halarm, Function.update_self]
      refine .rearm rfl hcons hdue (hperiod hper) ?_ ?_ ?_ ?_ hhist
      · rw [record_mod, hself]
        rfl
      · rw [record_mod, hself]
        rfl
      · rw [record_mod, hself]
        rfl
      · rw [queued_eq hx, queued, hhist, record_mod, hself]
        exact congrArg _ (if_pos rfl)
  · have hnone : schedulingOf a s.mod (.dispatch env) = none := by
      rw [schedulingOf, hcons]
      exact if_neg fun h => hba h.1
    have hx' : ({ s with mod := mod, dispatcher := .enqueue b }.record
        (.dispatch env) []).inTransit ≠ some a := fun h => hba (Option.some.inj h)
    have hkept : mod.alarm a = s.mod.alarm a ∧ (a ∈ mod.alarms → a ∈ s.mod.alarms) := by
      rw [hcons]
      obtain ⟨-, halarm, halarms, -⟩ | ⟨hperb, ⟨stats, halarm⟩, hcb⟩ := hkind
      · rw [halarm, halarms]
        exact ⟨rfl, List.mem_cons_of_mem b⟩
      · have hlisted : b ∈ s.mod.alarms := by simp [hcons]
        obtain ⟨halarms, -⟩ := hcb (hw.callback_of_periodic b hperb hlisted)
        rw [halarm, Function.update_of_ne (Ne.symm hba), halarms, mem_inserted]
        refine ⟨rfl, ?_⟩
        rintro (hab | ha)
        · exact absurd hab.symm hba
        · exact List.mem_cons_of_mem b (List.mem_of_mem_erase ha)
    obtain ⟨hsame, hmem⟩ := hkept
    refine .other hnone ?_ ?_ ?_ ?_ ?_
    · rw [record_mod, hsame]
    · rw [record_mod, hsame]
    · intro ha
      rw [record_mod, hsame]
      exact ⟨hmem ha, rfl⟩
    · rw [queued_eq hx', queued_eq hx, hhist]
    · intro n e
      rw [hhist]

theorem Course.of_enqueue {b : AlarmPtr} {mod : AlarmState}
    (hper : (s.mod.alarm a).isPeriodic = true) (htransit : s.dispatcher = .enqueue b)
    (hmod : s.mod.callbackDispatchEnqueue b = .ok mod) :
    Course a s .enqueue ({ s with mod := mod, dispatcher := .waiting }.record .enqueue
      [.dispatch b (dispatchedDeadline (mod.alarm b))]) := by
  obtain ⟨halarm, halarms, -⟩ := callbackDispatchEnqueue_ok hmod
  have hx : s.inTransit = some b := by simp [inTransit, htransit]
  refine .other rfl ?_ ?_ ?_ ?_ ?_
  · rw [record_mod, halarm]
  · rw [record_mod, halarm]
  · intro ha
    rw [record_mod, halarm]
    exact ⟨halarms ▸ ha, rfl⟩
  · rw [queued_eq (fun h => Option.some_ne_none a h.symm), record_hist, List.foldl_append,
      queued, hx, halarm]
    by_cases hba : b = a
    · subst hba
      have hd : dispatchedDeadline (s.mod.alarm b) = (s.mod.alarm b).prevDeadline :=
        if_pos hper
      rw [hd, if_pos rfl]
      exact if_pos rfl
    · rw [if_neg fun h => hba (Option.some.inj h), List.append_nil]
      exact if_neg hba
  · intro n e
    rw [record_hist, IsLast.concat_iff_of_not id]

theorem course_of_step (hw : Wellformed s.mod s.inTransit)
    (hper : (s.mod.alarm a).isPeriodic = true) (h : s.step l = .ok s') :
    Course a s l s' := by
  cases step_cases h with
  | set hquiet hmod => exact .of_set hquiet hper hmod
  | cancel hquiet => exact .of_cancel hquiet hw.nodup
  | take hwaiting _ =>
      exact .of_same rfl (.of_eq rfl rfl rfl) (by simp [inTransit, hwaiting])
        (List.append_nil _)
  | @dispatchNone env mod htoken hmod =>
      obtain ⟨rfl, hlater⟩ := callbackDispatch_none hmod
      refine .of_same ?_ (.rescheduleRootAlarm _ _) (by simp [inTransit, htoken])
        (List.append_nil _)
      -- the front alarm is not due
      rw [schedulingOf]
      split
      · rfl
      · rename_i b rest hcons
        apply if_neg
        rintro ⟨rfl, hdue⟩
        exact UInt64.not_lt.mpr hdue (hlater b (by simp [hcons]))
  | dispatchSome htoken hmod => exact .of_dispatch hw hper htoken hmod
  | enqueue htransit hmod => exact .of_enqueue hper htransit hmod
  | dequeueNone _ _ hmod =>
      rw [(alarmQueueReady_none hmod).1]
      exact .of_same rfl (.of_eq rfl rfl rfl) rfl (List.append_nil _)
  | @dequeueSome t q mod i hquiet hidle hmod =>
      have hsame := alarmQueueReady_alarm_eq (a := a) hmod fun _ => hper
      have halarms := (alarmQueueReady_some hmod).2.2.2.1
      refine .of_event rfl ?_ ?_ rfl rfl id id
      · rw [record_mod, hsame]
        exact ⟨rfl, rfl, rfl⟩
      · intro ha
        rw [record_mod, hsame]
        exact ⟨halarms ▸ ha, rfl⟩
  | invoke hready => exact .of_event rfl ⟨rfl, rfl, rfl⟩ (fun ha => ⟨ha, rfl⟩) rfl rfl id id
  | @finish t t1 t0 i hrunning =>
      exact .of_same rfl (.modify_stats s.mod i.alarm
        fun stats => updateSchedulingStats stats t0 i.deadline (t1 - t0)) rfl
        (List.append_nil _)
  | expireTimer _ => exact .of_same rfl (.of_eq rfl rfl rfl) rfl (List.append_nil _)
  | expireWakeupTimer _ => exact .of_same rfl (.of_eq rfl rfl rfl) rfl (List.append_nil _)

/-! ## Whole runs -/

theorem addDeadline_none {ds : List (PeriodMs × PeriodMs)}
    (h : schedulingOf a s.mod l = none) : addDeadline a s.mod l ds = ds := by
  unfold addDeadline
  rw [h]

theorem addDeadline_set {r : SetArgs} {env : SetEnv} {ds : List (PeriodMs × PeriodMs)}
    (ha : r.alarm = a) : addDeadline a s.mod (.set r env) ds =
      [(env.schedule.now, nextDeadline (assigned (s.mod.alarm a) r env) env.schedule.now)] := by
  have hcall : schedulingOf a s.mod (.set r env) =
      some (assigned (s.mod.alarm a) r env, env.schedule.now) := if_pos ha
  unfold addDeadline
  rw [hcall]

theorem schedulingOf_rearm {env : DispatchEnv} {rest : List AlarmPtr}
    (hcons : s.mod.alarms = a :: rest) (hdue : (s.mod.alarm a).deadline ≤ env.now) :
    schedulingOf a s.mod (.dispatch env) = some (s.mod.alarm a, env.schedule.now) := by
  rw [schedulingOf, hcons]
  exact if_pos ⟨rfl, hdue⟩

theorem addDeadline_rearm {env : DispatchEnv} {rest : List AlarmPtr}
    {ds : List (PeriodMs × PeriodMs)} (hcons : s.mod.alarms = a :: rest)
    (hdue : (s.mod.alarm a).deadline ≤ env.now) :
    addDeadline a s.mod (.dispatch env) ds =
      ds ++ [(env.schedule.now, nextDeadline (s.mod.alarm a) env.schedule.now)] := by
  unfold addDeadline
  rw [schedulingOf_rearm hcons hdue]

/-- The calls `ds` since the last set of the periodic alarm `a`: each has computed the next
instant, and was made at or after the deadline of the call before it. While the alarm is in
the list the last of them has computed its deadline, and it has been put in its queue with
the others. -/
structure Tracks (a : AlarmPtr) (s : System) (ds : List (PeriodMs × PeriodMs)) : Prop where
  created : (s.mod.alarm a).creationTime ≤ s.clock
  fields : ∀ n r c d, IsLast (Event.Sets a) s.hist n (.set r c d) →
    (s.mod.alarm a).creationTime = c ∧ (s.mod.alarm a).period = r.intervalMs
  next : ∀ x ∈ ds,
    NextInstant (s.mod.alarm a).creationTime.toNat (s.mod.alarm a).period.toNat
        x.1.toNat x.2.toNat ∧
      x.2.toNat ≤ x.1.toNat + (s.mod.alarm a).period.toNat
  ordered : ds.Pairwise fun x y => x.2 ≤ y.1
  last : a ∈ s.mod.alarms → ∃ ds₀ t, ds = ds₀ ++ [(t, (s.mod.alarm a).deadline)]
  queued : s.queued a = (ds.map Prod.snd).dropLast

namespace Tracks

variable {ds : List (PeriodMs × PeriodMs)}

theorem init (isPeriodic : AlarmPtr → Bool) (capacity : QueuePtr → UInt64) (a : AlarmPtr) :
    Tracks a (System.init isPeriodic capacity) [] where
  created := UInt64.le_refl _
  fields n r c d hlast := absurd hlast.get (by simp [System.init])
  next x hx := absurd hx List.not_mem_nil
  ordered := .nil
  last ha := absurd ha List.not_mem_nil
  queued := rfl

/-- No call has computed a later deadline than the last one. -/
theorem le_last {t d : PeriodMs} (h : Tracks a s (ds ++ [(t, d)])) {x : PeriodMs × PeriodMs}
    (hx : x ∈ ds ++ [(t, d)]) : x.2 ≤ d := by
  rcases List.mem_append.mp hx with hx | hx
  · have hxt : x.2 ≤ t :=
      (List.pairwise_append.mp h.ordered).2.2 x hx _ (List.mem_singleton_self _)
    have htd := (h.next (t, d) (by simp)).1.lt
    exact UInt64.le_trans hxt (UInt64.le_iff_toNat_le.mpr htd.le)
  · obtain rfl := List.mem_singleton.mp hx
    exact UInt64.le_refl _

theorem step (h : Tracks a s ds) (hw : Wellformed s.mod s.inTransit)
    (hper : (s.mod.alarm a).isPeriodic = true) (hsteady : Steady a s l)
    (hstep : s.step l = .ok s') : Tracks a s' (addDeadline a s.mod l ds) := by
  obtain ⟨hmono, hfits⟩ := hsteady
  have hclock : s.clock ≤ s'.clock := by
    rw [step_clock hstep]
    exact le_tick hmono (Or.inl rfl)
  cases course_of_step hw hper hstep with
  | @set r env hl ha hperiod hcreated hperiod' hdeadline hqueued hhist =>
      subst hl
      have hle : env.creationTime ≤ env.schedule.now := by
        simp only [ClockMonotone, Label.readings, List.pairwise_cons] at hmono
        exact hmono.2.1 _ (by simp)
      have hcall := hfits (assigned (s.mod.alarm a) r env, env.schedule.now) (if_pos ha)
      rw [addDeadline_set ha]
      refine ⟨?_, ?_, ?_, List.pairwise_singleton _ _, ?_, hqueued⟩
      · rw [hcreated, step_clock hstep]
        exact le_tick hmono (Or.inr (by simp [Label.readings]))
      · intro n r' c d hlast
        rw [hhist] at hlast
        have hsets : Event.Sets a
            (.set r env.creationTime (s'.mod.alarm a).deadline) := ha
        obtain ⟨-, heq⟩ := (IsLast.concat_iff_of hsets).mp hlast
        cases heq
        exact ⟨hcreated, hperiod'⟩
      · intro x hx
        obtain rfl := List.mem_singleton.mp hx
        rw [hcreated, hperiod']
        exact nextInstant_nextDeadline hle hper hperiod hcall
      · intro _
        rw [hdeadline]
        exact ⟨[], _, rfl⟩
  | @rearm env rest hl hcons hdue hperiod hcreated hperiod' hdeadline hqueued hhist =>
      subst hl
      have hcall := hfits (s.mod.alarm a, env.schedule.now)
        (schedulingOf_rearm hcons hdue)
      simp only [ClockMonotone, Label.readings, List.pairwise_cons] at hmono
      have hlater : env.now ≤ env.schedule.now := hmono.2.1 _ (by simp)
      have hthen : s.clock ≤ env.schedule.now := hmono.1 _ (by simp)
      obtain ⟨ds₀, t, rfl⟩ := h.last (by rw [hcons]; exact List.mem_cons_self)
      have hdue' : (s.mod.alarm a).deadline ≤ env.schedule.now := UInt64.le_trans hdue hlater
      rw [addDeadline_rearm hcons hdue]
      refine ⟨?_, ?_, ?_, ?_, ?_, ?_⟩
      · rw [hcreated]
        exact UInt64.le_trans h.created hclock
      · intro n r c d hlast
        rw [hhist] at hlast
        rw [hcreated, hperiod']
        exact h.fields n r c d hlast
      · intro x hx
        rw [hcreated, hperiod']
        rcases List.mem_append.mp hx with hx | hx
        · exact h.next x hx
        · obtain rfl := List.mem_singleton.mp hx
          exact nextInstant_nextDeadline (UInt64.le_trans h.created hthen) hper hperiod hcall
      · refine List.pairwise_append.mpr ⟨h.ordered, List.pairwise_singleton _ _, ?_⟩
        intro x hx y hy
        obtain rfl := List.mem_singleton.mp hy
        exact UInt64.le_trans (h.le_last hx) hdue'
      · intro _
        rw [hdeadline]
        exact ⟨_, _, rfl⟩
      · rw [hqueued, h.queued]
        simp
  | other hnone hcreated hperiod hlisted hqueued hhist =>
      rw [addDeadline_none hnone]
      refine ⟨?_, ?_, ?_, h.ordered, ?_, ?_⟩
      · rw [hcreated]
        exact UInt64.le_trans h.created hclock
      · intro n r c d hlast
        rw [hcreated, hperiod]
        exact h.fields n r c d ((hhist n _).mp hlast)
      · rw [hcreated, hperiod]
        exact h.next
      · intro ha
        obtain ⟨hold, hdeadline⟩ := hlisted ha
        rw [hdeadline]
        exact h.last hold
      · rw [hqueued]
        exact h.queued

end Tracks

theorem follow_of_step {ds : List (PeriodMs × PeriodMs)} (h : s.step l = .ok s') :
    follow a (s, ds) l = (s', addDeadline a s.mod l ds) := by
  rw [follow, h]

theorem foldl_follow {s₀ : System} {ls : List Label} (h : Run (Next System.step) s₀ ls s) :
    ls.foldl (follow a) (s₀, []) = (s, deadlines a s₀ ls) := by
  have hfst : (ls.foldl (follow a) (s₀, [])).1 = s := by
    induction h with
    | nil => rfl
    | @snoc s₁ s₂ ls l _ hlast ih =>
        rw [List.foldl_append, List.foldl_cons, List.foldl_nil]
        rw [← Prod.mk.eta (p := ls.foldl (follow a) (s₀, [])), ih, follow_of_step hlast]
  exact Prod.ext hfst rfl

theorem tracks_of_run {isPeriodic : AlarmPtr → Bool} {capacity : QueuePtr → UInt64}
    {ls : List Label} (ha : isPeriodic a = true)
    (h : Run (Guarded (Steady a) (Next System.step)) (init isPeriodic capacity) ls s) :
    Tracks a s (deadlines a (init isPeriodic capacity) ls) := by
  generalize hs₀ : init isPeriodic capacity = s₀ at h ⊢
  induction h with
  | nil => exact hs₀ ▸ .init isPeriodic capacity a
  | @snoc s₁ s₂ ls l hrun hlast ih =>
      subst hs₀
      have hper := isPeriodic_of_reachable ⟨ls, hrun⟩ a
      have hfollow := foldl_follow (a := a) (hrun.mono fun _ _ _ hnext => hnext.2)
      have hmore : deadlines a (init isPeriodic capacity) (ls ++ [l]) =
          addDeadline a s₁.mod l (deadlines a (init isPeriodic capacity) ls) := by
        rw [deadlines, List.foldl_append, hfollow, List.foldl_cons, List.foldl_nil,
          follow_of_step hlast.2]
      rw [hmore]
      exact ih.step (wellformed_of_reachable ⟨ls, hrun⟩) (hper.trans ha) hlast.1 hlast.2

/-! ## The instants of a set -/

/-- A periodic alarm does not drift. -/
theorem periodic_no_drift (isPeriodic : AlarmPtr → Bool) (capacity : QueuePtr → UInt64)
    (a : AlarmPtr) (ha : isPeriodic a = true) (ls : List Label) (s : System)
    (h : Run (Guarded (Steady a) (Next System.step)) (init isPeriodic capacity) ls s)
    (n : ℕ) (r : SetArgs) (c d : PeriodMs)
    (hset : IsLast (Event.Sets a) s.hist n (.set r c d)) :
    (∀ x ∈ deadlines a (init isPeriodic capacity) ls,
      NextInstant c.toNat r.intervalMs.toNat x.1.toNat x.2.toNat ∧ x.1 < x.2 ∧
        x.2.toNat ≤ x.1.toNat + r.intervalMs.toNat ∧
        x.2.toNat ≡ c.toNat [MOD r.intervalMs.toNat]) ∧
      (deadlines a (init isPeriodic capacity) ls).Pairwise
        (fun x y => x.2 ≤ y.1 ∧ x.2 < y.2) ∧
      (a ∈ s.mod.alarms → ((deadlines a (init isPeriodic capacity) ls).map Prod.snd).getLast? =
        some (s.mod.alarm a).deadline) ∧
      s.queued a = ((deadlines a (init isPeriodic capacity) ls).map Prod.snd).dropLast ∧
      ∀ ds₁ x y ds₂, deadlines a (init isPeriodic capacity) ls = ds₁ ++ x :: y :: ds₂ →
        ∀ g ∈ s.queued a, g ≤ x.2 ∨ y.1 < g := by
  have htracks := tracks_of_run ha h
  obtain ⟨rfl, hperiod⟩ := htracks.fields n r c d hset
  have hnext := htracks.next
  rw [hperiod] at hnext
  have hlt : ∀ x ∈ deadlines a (init isPeriodic capacity) ls, x.1 < x.2 := by
    intro x hx
    exact UInt64.lt_iff_toNat_lt.mpr (hnext x hx).1.lt
  have hordered := htracks.ordered.imp_of_mem fun {x y} _ hy hle =>
    (⟨hle, UInt64.lt_of_le_of_lt hle (hlt y hy)⟩ : x.2 ≤ y.1 ∧ x.2 < y.2)
  refine ⟨?_, hordered, ?_, htracks.queued, ?_⟩
  · intro x hx
    exact ⟨(hnext x hx).1, hlt x hx, (hnext x hx).2, (hnext x hx).1.modEq⟩
  · intro hlisted
    obtain ⟨ds₀, t, hds⟩ := htracks.last hlisted
    rw [hds]
    simp
  · intro ds₁ x y ds₂ hds g hg
    rw [htracks.queued] at hg
    obtain ⟨z, hz, rfl⟩ := List.mem_map.mp (List.mem_of_mem_dropLast hg)
    rw [hds] at hordered hz hlt
    obtain ⟨-, hright, hleft⟩ := List.pairwise_append.mp hordered
    rcases List.mem_append.mp hz with hz | hz
    · exact Or.inl (UInt64.le_of_lt (hleft z hz x List.mem_cons_self).2)
    · rcases List.mem_cons.mp hz with rfl | hz
      · exact Or.inl (UInt64.le_refl _)
      · right
        have hy : y.1 < y.2 := hlt y (by simp)
        rcases List.mem_cons.mp hz with rfl | hz
        · exact hy
        · have hyz := List.rel_of_pairwise_cons (List.pairwise_cons.mp hright).2 hz
          exact UInt64.lt_trans hy hyz.2

def lateDispatch : List Label :=
  [.set ⟨2, 100, 200, 9, 7⟩ (setAt 1000), .expireTimer 1100, .take,
    .dispatch (dispatchAt 1350), .enqueue]

theorem periodic_no_drift_lateDispatch :
    deadlines 2 (init (· == 2) fun _ => 10) lateDispatch = [(1000, 1100), (1350, 1400)] ∧
      NextInstant 1000 100 1350 1400 ∧
      ∃ s : System, s.mod.alarms = [2] ∧ s.queued 2 = [1100] := by
  have hcalls : deadlines 2 (init (· == 2) fun _ => 10) lateDispatch =
      [(1000, 1100), (1350, 1400)] := by
    decide +kernel
  have hend : ((exec (fun s l => decide (Steady 2 s l)) System.step
      (init (· == 2) fun _ => 10) lateDispatch).any fun s =>
        decide (s.mod.alarms = [2] ∧
          s.hist = [.set ⟨2, 100, 200, 9, 7⟩ 1000 1100, .dispatch 2 1100])) = true := by
    decide +kernel
  obtain ⟨s, hs, hend⟩ := (Option.any_eq_true _ _).mp hend
  obtain ⟨halarms, hhist⟩ := of_decide_eq_true hend
  have hset : IsLast (Event.Sets 2) s.hist 0 (.set ⟨2, 100, 200, 9, 7⟩ 1000 1100) :=
    .of_drop (by simp [hhist]) rfl (by simp [hhist, Event.Sets])
  obtain ⟨hnext, -, -, hqueued, -⟩ :=
    periodic_no_drift _ _ 2 rfl lateDispatch s (Run.of_exec hs) 0 _ _ _ hset
  rw [hcalls] at hnext hqueued
  exact ⟨hcalls, (hnext (1350, 1400) (by simp)).1, s, halarms, hqueued⟩

end System

end Alarm

end Osi
