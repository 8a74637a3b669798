import Osi.Alarm.Locking
import Osi.Alarm.Representation.Runs

/-!
# The cancel guarantee

After the section of `alarm_cancel(a)` the alarm waits neither in the list nor in
a queue nor in the hands of the dispatcher, and only a set can change that. What
is left is a thread that had dequeued the alarm before: it took the
`callback_lock` before it gave up the monitor, so `alarm_cancel` gets the lock
only after the callback has returned.
-/

namespace Osi

namespace Alarm

open Transition AlarmState

def Label.Sets (a : AlarmPtr) : Label → Prop
  | set r _ => r.alarm = a
  | _ => False

instance (a : AlarmPtr) (l : Label) : Decidable (l.Sets a) :=
  match l with
  | .set r _ => inferInstanceAs (Decidable (r.alarm = a))
  | .cancel _ _ | .take | .dispatch _ | .enqueue | .dequeue _ _ | .invoke _ _
  | .finish _ _ | .expireTimer _ | .expireWakeupTimer _ => isFalse id

structure Cleared (a : AlarmPtr) (m : AlarmState) (x : Option AlarmPtr) : Prop where
  not_listed : a ∉ m.alarms
  not_queued : ∀ q, a ∉ (m.queues q).list
  not_transit : x ≠ some a

namespace Cleared

variable {a : AlarmPtr} {m m' : AlarmState} {x x' : Option AlarmPtr}

theorem of_cancel (hw : Wellformed m none) (hr : Represents m none)
    (env : RescheduleEnv) : Cleared a (m.alarmCancel a env) none := by
  obtain ⟨_, halarms, hpurge⟩ := alarmCancel_spec m a env
  refine ⟨?_, ?_, by simp⟩
  · rw [halarms]
    exact hw.nodup.not_mem_erase
  · intro q hq
    rw [hpurge.mem_iff] at hq
    exact hq.2 ⟨rfl, hr.home a q hq.1⟩

theorem effect (h : Cleared a m x) (hw : Wellformed m x) {l : Label}
    (hl : ¬ l.Sets a) (heffect : Effect l m x m' x') : Cleared a m' x' := by
  have hpending : ¬ (a ∈ m'.alarms ∨ x' = some a) := by
    intro hnew
    rcases heffect.pending_of hw hnew with hold | ⟨r, env, rfl, hset, _⟩
    · exact hold.elim h.not_listed h.not_transit
    · exact hl hset
  refine ⟨fun ha => hpending (Or.inl ha), ?_, fun ha => hpending (Or.inr ha)⟩
  intro q hq
  rcases heffect.queued_of hw hq with hold | ⟨hx, _⟩
  · exact h.not_queued q hold
  · exact h.not_transit hx

end Cleared

def ConsumerPhase.alarm : ConsumerPhase → Option AlarmPtr
  | idle => none
  | ready i | running i _ => some i.alarm

/-- A thread comes to serve an alarm only by dequeueing it. -/
theorem System.step_consumer {s s' : System} {l : Label} (h : s.step l = .ok s')
    {t : Tid} {a : AlarmPtr} (ht : (s'.consumer t).alarm = some a) :
    (s.consumer t).alarm = some a ∨ ∃ q, l = .dequeue t q ∧ a ∈ (s.mod.queues q).list := by
  cases step_cases h with
  | set | cancel | take | dispatchNone | dispatchSome | enqueue | dequeueNone
  | expireTimer | expireWakeupTimer => exact Or.inl ht
  | @dequeueSome u q mod i hquiet hidle hmod =>
      obtain ⟨⟨rest, hlist, _⟩, _⟩ := alarmQueueReady_some hmod
      by_cases htu : t = u
      · subst htu
        simp only [record_consumer, Function.update_self] at ht
        obtain rfl : i.alarm = a := Option.some.inj ht
        exact Or.inr ⟨q, rfl, by simp [hlist]⟩
      · simp only [record_consumer, Function.update_of_ne htu] at ht
        exact Or.inl ht
  | @invoke u t0 i hready =>
      by_cases htu : t = u
      · subst htu
        simp only [record_consumer, Function.update_self] at ht
        rw [hready]
        exact Or.inl ht
      · simp only [record_consumer, Function.update_of_ne htu] at ht
        exact Or.inl ht
  | @finish u t1 t0 i hrunning =>
      by_cases htu : t = u
      · subst htu
        simp only [record_consumer, Function.update_self] at ht
        cases ht
      · simp only [record_consumer, Function.update_of_ne htu] at ht
        exact Or.inl ht

namespace Threads

def InCallback (s : Threads) (t : Tid) (a : AlarmPtr) : Prop :=
  ∃ i t0, s.sys.consumer t = .running i t0 ∧ i.alarm = a

/-- Some time after the section of an `alarm_cancel(a)` by the thread `t`, with no
set of `a` since: whoever still serves the alarm has its `callback_lock`, and `t`
has not got past that lock while there is such a thread. -/
structure Canceled (a : AlarmPtr) (t : Tid) (s : Threads) : Prop where
  cleared : Cleared a s.sys.mod s.sys.inTransit
  not_locking : ∀ u i, s.pc u = .readyCallbackLock i → i.alarm ≠ a
  waiting : (∀ u, (s.sys.consumer u).alarm ≠ some a) ∨
    (s.pc t = .cancelUnlock a ∨ s.pc t = .cancelCallbackLock a) ∧
      (s.sys.consumer t).alarm ≠ some a

namespace Canceled

variable {d t : Tid} {a : AlarmPtr} {s s' : Threads}

/-- Once `t` gets the `callback_lock`, nobody serves the alarm. -/
theorem not_served (h : Canceled a t s) (hlocked : Locked d s)
    (ht : (s.sys.consumer t).alarm ≠ some a)
    (hlock : ∀ u, u ≠ t → (s.callbackLock a).depth u = 0) (u : Tid) :
    (s.sys.consumer u).alarm ≠ some a := by
  intro hu
  by_cases hut : u = t
  · subst hut
    exact ht hu
  · have hdepth := (hlocked.callbackLock a u).symm.trans (hlock u hut)
    cases hconsumer : s.sys.consumer u with
    | idle =>
        rw [hconsumer] at hu
        cases hu
    | ready i =>
        rw [hconsumer] at hu
        obtain rfl : i.alarm = a := Option.some.inj hu
        -- the points that serve `i` hold its lock, except for the one before the lock
        have hserving := (hlocked.ready u i).mp hconsumer
        cases hpc : s.pc u with
        | readyCallbackLock j =>
            rw [hpc] at hserving
            obtain rfl : j = i := Option.some.inj hserving
            exact h.not_locking u j hpc rfl
        | readyUnlock j | readyCallback j =>
            rw [hpc] at hserving
            obtain rfl : j = i := Option.some.inj hserving
            rw [hpc] at hdepth
            simp [Pc.callbackLocks] at hdepth
        | _ =>
            rw [hpc] at hserving
            cases hserving
    | running i t0 =>
        rw [hconsumer] at hu hdepth
        obtain rfl : i.alarm = a := Option.some.inj hu
        simp [ConsumerPhase.callbackLocks] at hdepth

/-- A step of `System` that does not set `a` brings no thread to serve it. -/
theorem not_served_step (h : Canceled a t s) {l : Label} {sys' : System}
    (hsys : s.sys.step l = .ok sys') {u : Tid}
    (hu : (s.sys.consumer u).alarm ≠ some a) : (sys'.consumer u).alarm ≠ some a := by
  intro hu'
  rcases System.step_consumer hsys hu' with hold | ⟨q, _, hq⟩
  · exact hu hold
  · exact h.cleared.not_queued q hq

/-- A step of the thread `u`: nobody gets to the `callback_lock` of `a` in
`alarm_queue_ready`, and `t` stays before that lock unless nobody serves `a`. -/
theorem move (h : Canceled a t s) {u : Tid} {v : Pc}
    (hpc : s'.pc = Function.update s.pc u v)
    (hcleared : Cleared a s'.sys.mod s'.sys.inTransit)
    (hconsumer : ∀ w, (s.sys.consumer w).alarm ≠ some a →
      (s'.sys.consumer w).alarm ≠ some a)
    (hv : ∀ i, v = .readyCallbackLock i → i.alarm ≠ a)
    (hwait : (∀ w, (s.sys.consumer w).alarm ≠ some a) ∨
      (s.pc u = .cancelUnlock a ∨ s.pc u = .cancelCallbackLock a → u = t →
        v = .cancelUnlock a ∨ v = .cancelCallbackLock a)) : Canceled a t s' := by
  refine ⟨hcleared, ?_, ?_⟩
  · intro w i hw
    rw [hpc] at hw
    by_cases hwu : w = u
    · subst hwu
      rw [Function.update_self] at hw
      exact hv i hw
    · rw [Function.update_of_ne hwu] at hw
      exact h.not_locking w i hw
  · rcases hwait with hnone | hstay
    · exact Or.inl fun w => hconsumer w (hnone w)
    · rcases h.waiting with hnone | ⟨hwaiting, ht⟩
      · exact Or.inl fun w => hconsumer w (hnone w)
      · refine Or.inr ⟨?_, hconsumer t ht⟩
        rw [hpc]
        by_cases htu : t = u
        · subst htu
          rw [Function.update_self]
          exact hstay hwaiting rfl
        · rw [Function.update_of_ne htu]
          exact hwaiting

theorem lockCallback (h : Canceled a t s) (hlocked : Locked d s) {u : Tid} {b : AlarmPtr}
    {v : Pc} {lock : RecursiveMutex Tid} (hv : (s.pc u).afterLockCallback = some (b, v))
    (hlock : (s.callbackLock b).lock u = some lock) :
    Canceled a t { s with
      callbackLock := Function.update s.callbackLock b lock
      pc := Function.update s.pc u v } := by
  refine h.move rfl h.cleared (fun w hw => hw) ?_ ?_
  · intro i hi
    subst hi
    cases hpc : s.pc u <;> rw [hpc] at hv <;> cases hv
  · by_cases hserved : ∀ w, (s.sys.consumer w).alarm ≠ some a
    · exact Or.inl hserved
    · refine Or.inr ?_
      rintro hpc rfl
      rcases hpc with hpc | hpc
      · rw [hpc] at hv
        cases hv
      · rw [hpc] at hv
        obtain ⟨rfl, rfl⟩ : a = b ∧ Pc.cancelCallbackUnlock a = v := by
          simpa [Pc.afterLockCallback] using hv
        obtain ⟨_, hothers⟩ := RecursiveMutex.depth_of_lock hlock
        have hself : (s.sys.consumer u).alarm ≠ some a := by
          rcases h.waiting with hnone | ⟨_, hself⟩
          · exact hnone u
          · exact hself
        exact absurd (h.not_served hlocked hself fun w hw => (hothers w hw).1) hserved

theorem act (h : Canceled a t s) (hw : Wellformed s.sys.mod s.sys.inTransit) {u : Tid}
    {l : Label} (hl : ¬ l.Sets a) {sys' : System} {v : Pc}
    (hsys : s.sys.step l = .ok sys') (hv : s.afterAct u l sys' = some v) :
    Canceled a t { s with sys := sys', pc := Function.update s.pc u v } := by
  refine h.move rfl (h.cleared.effect hw hl (System.step_effect hsys))
    (fun w hw => h.not_served_step hsys hw) ?_ (Or.inr ?_)
  · rintro i rfl halarm
    cases act_cases hv with
    | dequeueSome hpc hready =>
        have hu : (sys'.consumer u).alarm = some a := by
          rw [hready]
          exact congrArg some halarm
        rcases System.step_consumer hsys hu with hold | ⟨q, _, hq⟩
        · cases System.step_cases hsys with
          | dequeueNone hquiet hidle hmod =>
              rw [hidle] at hold
              cases hold
          | dequeueSome hquiet hidle hmod =>
              rw [hidle] at hold
              cases hold
        · exact h.cleared.not_queued q hq
  · rintro hpc -
    cases act_cases hv <;> simp_all

theorem step (h : Canceled a t s) (hlocked : Locked d s)
    (hw : Wellformed s.sys.mod s.sys.inTransit) {l : ThreadLabel}
    (hl : ∀ u l', l = .act u l' → ¬ l'.Sets a) (hs' : s.step l = .ok s') :
    Canceled a t s' := by
  cases step_cases hs' with
  | @call u c hidle hready =>
      refine h.move rfl h.cleared (fun w hw => hw) ?_ (Or.inr ?_)
      · intro i hi
        cases c <;> cases hi
      · intro hpc
        rw [hidle] at hpc
        simp at hpc
  | @lockMonitor u v hv hfree =>
      refine h.move rfl h.cleared (fun w hw => hw) ?_ (Or.inr ?_)
      · rintro i rfl
        cases hpc : s.pc u <;> rw [hpc] at hv <;> cases hv
      · rintro (hpc | hpc) <;> rw [hpc] at hv <;> cases hv
  | @unlockMonitor u v hv =>
      refine h.move rfl h.cleared (fun w hw => hw) ?_ (Or.inr ?_)
      · rintro i rfl
        cases hpc : s.pc u <;> rw [hpc] at hv <;> cases hv
      · rintro (hpc | hpc) - <;> rw [hpc] at hv <;> cases hv
        exact Or.inr rfl
  | lockCallback hv hlock => exact h.lockCallback hlocked hv hlock
  | @unlockCallback u b v hv =>
      refine h.move rfl h.cleared (fun w hw => hw) ?_ (Or.inr ?_)
      · rintro i rfl
        cases hpc : s.pc u <;> rw [hpc] at hv <;> cases hv
      · rintro (hpc | hpc) <;> rw [hpc] at hv <;> cases hv
  | @act u l' sys' v hsys hv => exact h.act hw (hl u l' rfl) hsys hv
  | @expire l' sys' hexpiry hsys =>
      have hnot : ¬ l'.Sets a := by
        cases l' <;> first | cases hexpiry; done | exact id
      exact ⟨h.cleared.effect hw hnot (System.step_effect hsys), h.not_locking,
        h.waiting.imp (fun hnone w => h.not_served_step hsys (hnone w))
          (fun hwait => ⟨hwait.1, h.not_served_step hsys hwait.2⟩)⟩

/-- A step that does not set `a` brings no thread to serve it. -/
theorem unserved_step (h : Canceled a t s) {l : ThreadLabel} (hs' : s.step l = .ok s')
    {u : Tid} (hu : (s.sys.consumer u).alarm ≠ some a) :
    (s'.sys.consumer u).alarm ≠ some a := by
  cases step_cases hs' with
  | call | lockMonitor | unlockMonitor | lockCallback | unlockCallback => exact hu
  | act hsys hv => exact h.not_served_step hsys hu
  | expire hl hsys => exact h.not_served_step hsys hu

section Run

variable {home : AlarmPtr → QueuePtr} {isPeriodic : AlarmPtr → Bool}
  {capacity : QueuePtr → UInt64}

/-- A run that does not set `a` keeps it canceled, and once nobody serves the
alarm that stays so. -/
theorem run (hreach : Reachable (Guarded (Lift (System.OneQueue home)) (Next Threads.step))
      (init isPeriodic capacity d) s) (h : Canceled a t s) {ls : List ThreadLabel}
    (hrun : Run (Guarded (Lift (System.OneQueue home)) (Next Threads.step)) s ls s')
    (hls : ∀ u l, .act u l ∈ ls → ¬ l.Sets a) :
    Reachable (Guarded (Lift (System.OneQueue home)) (Next Threads.step))
      (init isPeriodic capacity d) s' ∧ Canceled a t s' ∧
      ((∀ u, (s.sys.consumer u).alarm ≠ some a) →
        ∀ u, (s'.sys.consumer u).alarm ≠ some a) := by
  induction hrun with
  | nil => exact ⟨hreach, h, fun hnone => hnone⟩
  | @snoc s' s'' ls l _ hlast ih =>
      obtain ⟨hreach', h', hnone'⟩ :=
        ih fun u l hmem => hls u l (List.mem_append_left _ hmem)
      have hsound : Sound home s'.sys :=
        sound_of_reachable (fun _ _ hguard => hguard) (reachable_sys hreach')
      refine ⟨hreach'.snoc hlast, ?_, ?_⟩
      · refine h'.step (locked_of_reachable hreach') hsound.wellformed ?_ hlast.2
        rintro u l' rfl
        exact hls u l' (List.mem_append_right _ (List.mem_singleton_self _))
      · intro hnone u
        exact h'.unserved_step hlast.2 (hnone' hnone u)

end Run

end Canceled

end Threads

end Alarm

end Osi
