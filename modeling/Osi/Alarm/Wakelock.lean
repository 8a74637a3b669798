import Osi.Alarm.Rescheduling
import Osi.Collection.Last
import Mathlib.Algebra.Group.Nat.Even

/-!
# The wakelock

`reschedule_root_alarm` acquires the wakelock when it programs the short timer
and has not got it, and releases it when it leaves the short timer disarmed
after having it armed. The log of these calls alternates, and it agrees with
`timer_set`, provided no deadline is zero: a zero deadline would be programmed
as a disarmed timer right after the acquisition.
-/

namespace Osi

namespace Alarm

open Transition AlarmState

def WakelockEvent.isCall : WakelockEvent → Bool
  | acquired => true
  | released => true
  | acquireFailed => false
  | rescheduled _ => false

def wakelockCalls (log : List WakelockEvent) : List WakelockEvent :=
  log.filter WakelockEvent.isCall

def wakelockHeld (log : List WakelockEvent) : Bool :=
  (wakelockCalls log).getLast? = some .acquired

/-- The calls of the log alternate, starting with an acquisition; the wakelock
is held at the end exactly if `held` says so, and each reschedule has reported
the truth about it. -/
structure Balanced (log : List WakelockEvent) (held : Bool) : Prop where
  alternate : ∀ (i : ℕ) (c : WakelockEvent), (wakelockCalls log)[i]? = some c →
    (Even i → c = .acquired) ∧ (¬ Even i → c = .released)
  parity : Even (wakelockCalls log).length ↔ held = false
  held_eq : wakelockHeld log = held
  reported : ∀ i b, log[i]? = some (.rescheduled b) → wakelockHeld (log.take i) = b

namespace Balanced

variable {log : List WakelockEvent} {held : Bool}

theorem nil : Balanced [] false where
  alternate i c h := absurd h (by simp [wakelockCalls])
  parity := by simp [wakelockCalls]
  held_eq := by simp [wakelockHeld, wakelockCalls]
  reported i b h := absurd h (by simp)

/-- Reports stay true when the log grows. -/
theorem reported_concat (h : Balanced log held) {e : WakelockEvent}
    (he : ∀ b, e = .rescheduled b → held = b) (i : ℕ) (b : Bool)
    (hi : (log ++ [e])[i]? = some (.rescheduled b)) :
    wakelockHeld ((log ++ [e]).take i) = b := by
  rcases Collection.getElem?_concat_iff.mp hi with hi | ⟨rfl, heq⟩
  · rw [Collection.take_concat (Collection.lt_length_of_getElem? hi).le]
    exact h.reported i b hi
  · rw [Collection.take_concat le_rfl, List.take_length, h.held_eq]
    exact he b heq

theorem call (h : Balanced log held) {e : WakelockEvent} (hcall : e.isCall = true)
    (he : e = if held then .released else .acquired) :
    Balanced (log ++ [e]) !held := by
  have hcalls : wakelockCalls (log ++ [e]) = wakelockCalls log ++ [e] := by
    simp [wakelockCalls, hcall]
  refine ⟨?_, ?_, ?_, h.reported_concat fun b hb => ?_⟩
  · intro i c hi
    rw [hcalls] at hi
    rcases Collection.getElem?_concat_iff.mp hi with hi | ⟨rfl, rfl⟩
    · exact h.alternate i c hi
    · rw [he, h.parity]
      cases held <;> simp
  · rw [hcalls, List.length_append, List.length_singleton, Nat.even_add_one, h.parity]
    cases held <;> simp
  · rw [wakelockHeld, hcalls, List.getLast?_concat, he]
    cases held <;> rfl
  · rw [hb] at hcall
    cases hcall

theorem note (h : Balanced log held) {e : WakelockEvent} (hcall : e.isCall = false)
    (he : ∀ b, e = .rescheduled b → held = b) : Balanced (log ++ [e]) held := by
  have hcalls : wakelockCalls (log ++ [e]) = wakelockCalls log := by
    simp [wakelockCalls, hcall]
  refine ⟨?_, ?_, ?_, h.reported_concat he⟩
  · rw [hcalls]
    exact h.alternate
  · rw [hcalls]
    exact h.parity
  · rw [wakelockHeld, hcalls]
    exact h.held_eq

end Balanced

/-- With the timer programmed for a non-zero time, the wakelock stays held. -/
theorem rescheduleDone_balanced_of_ne_zero {m : AlarmState} {v : Timespec}
    {env : RescheduleEnv} (h : Balanced m.wakelock true) (hv : v ≠ Timespec.zero) :
    Balanced (m.rescheduleDone v env).wakelock (m.rescheduleDone v env).timerSet := by
  have hset := Timespec.ne_zero_iff.mp hv
  simp only [rescheduleDone, hset, not_true_eq_false, and_false, if_false]
  exact h.note rfl fun b hb => by simpa using hb

theorem rescheduleDone_balanced_zero {m : AlarmState} (env : RescheduleEnv)
    (h : Balanced m.wakelock m.timerSet) :
    Balanced (m.rescheduleDone Timespec.zero env).wakelock false := by
  have hset : ¬ (Timespec.zero.tvSec ≠ 0 ∨ Timespec.zero.tvNsec ≠ 0) := by
    simp [Timespec.zero]
  cases hwas : m.timerSet with
  | false =>
      rw [hwas] at h
      simp only [rescheduleDone, hset, hwas, Bool.false_eq_true, false_and, if_false]
      exact h.note rfl fun b hb => by simpa using hb
  | true =>
      rw [hwas] at h
      simp only [rescheduleDone, hset, hwas, not_false_eq_true, and_self, if_true]
      exact (h.call (e := .released) rfl rfl).note rfl fun b hb => by simpa using hb

theorem rescheduleDone_timerSet_zero (m : AlarmState) (env : RescheduleEnv) :
    (m.rescheduleDone Timespec.zero env).timerSet = false := by
  simp [rescheduleDone, Timespec.zero]

theorem rescheduleRootAlarm_balanced {m : AlarmState} (env : RescheduleEnv)
    (hroot : ∀ d, m.rootDeadline = some d → d ≠ 0)
    (h : Balanced m.wakelock m.timerSet) :
    Balanced (m.rescheduleRootAlarm env).wakelock
      (m.rescheduleRootAlarm env).timerSet := by
  unfold rescheduleRootAlarm
  split
  · rw [rescheduleDone_timerSet_zero]
    exact rescheduleDone_balanced_zero env h
  · rename_i next rest hcons
    have hzero := Timespec.ofDeadline_ne_zero
      (hroot (m.alarm next).deadline (by simp [rootDeadline, hcons]))
    dsimp only
    split_ifs with hshort hset hacquire
    · rw [hset] at h
      exact rescheduleDone_balanced_of_ne_zero h hzero
    · rw [Bool.not_eq_true] at hset
      rw [hset] at h
      exact rescheduleDone_balanced_of_ne_zero (h.call (e := .acquired) rfl rfl) hzero
    · rw [rescheduleDone_timerSet_zero]
      exact rescheduleDone_balanced_zero env (h.note rfl fun b hb => by cases hb)
    · rw [rescheduleDone_timerSet_zero]
      exact rescheduleDone_balanced_zero env h

theorem rescheduleRootAlarm_timerSet_of_empty {m : AlarmState} (env : RescheduleEnv)
    (hempty : m.rootDeadline = none) : (m.rescheduleRootAlarm env).timerSet = false := by
  rw [rescheduleRootAlarm, rootDeadline_eq_none_iff.mp hempty]
  exact rescheduleDone_timerSet_zero m env

namespace Rescheduled

variable {r : Option PeriodMs} {envs : List RescheduleEnv} {t t' : Timers}

theorem balanced (h : Rescheduled r envs t t') (hroot : ∀ d, r = some d → d ≠ 0)
    (ht : Balanced t.wakelock t.timerSet) : Balanced t'.wakelock t'.timerSet := by
  induction h with
  | once hr _ =>
      subst hr
      exact rescheduleRootAlarm_balanced _ hroot ht
  | again _ hr _ ih =>
      subst hr
      exact rescheduleRootAlarm_balanced _ hroot (ih ht)

theorem timerSet_of_empty (h : Rescheduled r envs t t') (hr : r = none) :
    t'.timerSet = false := by
  cases h with
  | once hroot _ => exact rescheduleRootAlarm_timerSet_of_empty _ (hroot.trans hr)
  | again _ hroot _ => exact rescheduleRootAlarm_timerSet_of_empty _ (hroot.trans hr)

end Rescheduled

structure WakelockInvariant (s : System) : Prop where
  balanced : Balanced s.mod.wakelock s.mod.timerSet
  empty : s.mod.rootDeadline = none → s.mod.timerSet = false

theorem WakelockInvariant.step {home : AlarmPtr → QueuePtr} {s s' : System}
    {l : Label} (h : WakelockInvariant s) (hs : Sound home s)
    (hlisted : ListedDeadlines (· ≠ 0) s'.mod) (hstep : s.step l = .ok s') :
    WakelockInvariant s' := by
  cases System.step_timers hs hstep with
  | keep htimers hroot _ =>
      have hlog : s'.mod.wakelock = s.mod.wakelock := congrArg Timers.wakelock htimers
      have hset : s'.mod.timerSet = s.mod.timerSet := congrArg Timers.timerSet htimers
      exact ⟨by rw [hlog, hset]; exact h.balanced, by rw [hroot, hset]; exact h.empty⟩
  | rescheduled hres =>
      exact ⟨hres.balanced (fun d => hlisted.rootDeadline) h.balanced,
        hres.timerSet_of_empty⟩
  | expired hlog hset hroot _ =>
      exact ⟨by rw [hlog, hset]; exact h.balanced, by rw [hroot, hset]; exact h.empty⟩
  | taken hlog hset hroot _ =>
      exact ⟨by rw [hlog, hset]; exact h.balanced, by rw [hroot, hset]; exact h.empty⟩

/-- Every alarm uses one queue and no scheduled deadline is zero. -/
def System.Nonzero (home : AlarmPtr → QueuePtr) (s : System) (l : Label) : Prop :=
  OneQueue home s l ∧ NonzeroDeadlines s l

instance (home : AlarmPtr → QueuePtr) (s : System) (l : Label) :
    Decidable (System.Nonzero home s l) :=
  inferInstanceAs (Decidable (_ ∧ _))

/-- In every state of every run, whatever `wakelock_acquire` answers: the
successful acquisitions and the releases alternate, starting with an
acquisition; at each reschedule, and still now, the wakelock is held exactly
when `timer_set` is true; and it is not held when the list is empty. -/
theorem wakelock_balance (isPeriodic : AlarmPtr → Bool)
    (capacity : QueuePtr → UInt64) (home : AlarmPtr → QueuePtr) (s : System)
    (h : Reachable (Guarded (System.Nonzero home) (Next System.step))
      (System.init isPeriodic capacity) s) :
    (∀ (i : ℕ) (c : WakelockEvent), (wakelockCalls s.mod.wakelock)[i]? = some c →
      (Even i → c = .acquired) ∧ (¬ Even i → c = .released)) ∧
    (∀ i timerSet, s.mod.wakelock[i]? = some (.rescheduled timerSet) →
      wakelockHeld (s.mod.wakelock.take i) = timerSet) ∧
    wakelockHeld s.mod.wakelock = s.mod.timerSet ∧
    (s.mod.alarms = [] → wakelockHeld s.mod.wakelock = false) := by
  have hinv : WakelockInvariant s := by
    refine h.induct (I := WakelockInvariant) ⟨Balanced.nil, fun _ => rfl⟩ ?_
    intro s l s' hreach hs hlast
    exact hs.step (sound_of_reachable (fun _ _ hg => hg.1) hreach)
      (listedDeadlines_of_reachable (fun _ _ hg => hg) (hreach.snoc hlast)) hlast.2
  refine ⟨hinv.balanced.alternate, hinv.balanced.reported, hinv.balanced.held_eq, ?_⟩
  intro hempty
  rw [hinv.balanced.held_eq]
  exact hinv.empty (rootDeadline_eq_none_iff.mpr hempty)

/-- An alarm is set and cancelled again; the wakelock cannot be acquired at
first. -/
def setAndCancel : List Label :=
  [.set ⟨1, 10, 100, 0, 7⟩ ⟨10, 10, ⟨10, false, .armed, .armed⟩⟩,
    .set ⟨1, 10, 100, 0, 7⟩ (setAt 12), .cancel 1 (kernelAt 13)]

theorem wakelock_balance_setAndCancel :
    ∃ s : System, s.mod.wakelock =
        [.acquireFailed, .rescheduled false, .acquired, .rescheduled true, .released,
          .rescheduled false] ∧
      wakelockHeld s.mod.wakelock = false := by
  have hend : ((exec (fun s l => decide (System.Nonzero (fun _ => 7) s l))
      System.step (System.init (fun _ => false) fun _ => 10) setAndCancel).any fun s =>
        decide (s.mod.wakelock =
          [.acquireFailed, .rescheduled false, .acquired, .rescheduled true, .released,
            .rescheduled false] ∧ s.mod.alarms = [])) = true := by
    decide
  obtain ⟨s, hs, hend⟩ := (Option.any_eq_true _ _).mp hend
  obtain ⟨hlog, hempty⟩ := of_decide_eq_true hend
  exact ⟨s, hlog,
    (wakelock_balance _ _ _ s (Reachable.of_exec hs)).2.2.2 hempty⟩

end Alarm

end Osi
