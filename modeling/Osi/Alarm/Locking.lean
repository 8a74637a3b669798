import Osi.Alarm.Threads

/-!
# What the locks guarantee

The monitor is held exactly between its lock and its unlock, so no two sections
overlap. The `callback_lock` of an alarm is held by the thread that serves the
alarm, from before it gives up the monitor until the callback has returned, and
by a thread at the end of `alarm_cancel`.
-/

namespace Osi

namespace Alarm

open Transition

namespace Pc

def holdsMonitor : Pc → Bool
  | setSection _ | setUnlock | cancelSection _ | cancelUnlock _ | readySection _
  | readyReturn | readyCallbackLock _ | readyUnlock _ | dispatchSection
  | dispatchEnqueue | dispatchUnlock => true
  | _ => false

/-- What `alarm_queue_ready` has dequeued and not yet called. -/
def serving : Pc → Option Instance
  | readyCallbackLock i | readyUnlock i | readyCallback i => some i
  | _ => none

def callbackLocks (a : AlarmPtr) : Pc → ℕ
  | readyUnlock i | readyCallback i => if i.alarm = a then 1 else 0
  | cancelCallbackUnlock b | readyCallbackUnlock b => if b = a then 1 else 0
  | _ => 0

variable {w v : Pc} {a : AlarmPtr}

theorem afterLockMonitor_eq_some (h : w.afterLockMonitor = some v) :
    w.holdsMonitor = false ∧ v.holdsMonitor = true ∧ v.isDispatch = w.isDispatch ∧
      w ≠ .dispatchEnqueue ∧ v.serving = w.serving ∧
      ∀ a, v.callbackLocks a = w.callbackLocks a := by
  cases w <;> cases h <;> exact ⟨rfl, rfl, rfl, by simp, rfl, fun _ => rfl⟩

theorem afterUnlockMonitor_eq_some (h : w.afterUnlockMonitor = some v) :
    w.holdsMonitor = true ∧ v.holdsMonitor = false ∧ v.isDispatch = w.isDispatch ∧
      w ≠ .dispatchEnqueue ∧ v.serving = w.serving ∧
      ∀ a, v.callbackLocks a = w.callbackLocks a := by
  cases w <;> cases h <;> exact ⟨rfl, rfl, rfl, by simp, rfl, fun _ => rfl⟩

theorem afterLockCallback_eq_some (h : w.afterLockCallback = some (a, v)) :
    v.holdsMonitor = w.holdsMonitor ∧ v.isDispatch = w.isDispatch ∧
      w ≠ .dispatchEnqueue ∧ v.serving = w.serving ∧
      v.callbackLocks a = w.callbackLocks a + 1 ∧
      ∀ b, b ≠ a → v.callbackLocks b = w.callbackLocks b := by
  cases w <;> cases h <;> refine ⟨rfl, rfl, by simp, rfl, by simp [callbackLocks], ?_⟩
  all_goals
    intro b hb
    simp [callbackLocks, Ne.symm hb]

theorem afterUnlockCallback_eq_some (h : w.afterUnlockCallback = some (a, v)) :
    v.holdsMonitor = w.holdsMonitor ∧ v.isDispatch = w.isDispatch ∧
      w ≠ .dispatchEnqueue ∧ v.serving = w.serving ∧
      v.callbackLocks a + 1 = w.callbackLocks a ∧
      ∀ b, b ≠ a → v.callbackLocks b = w.callbackLocks b := by
  cases w <;> cases h <;> refine ⟨rfl, rfl, by simp, rfl, by simp [callbackLocks], ?_⟩
  all_goals
    intro b hb
    simp [callbackLocks, Ne.symm hb]

end Pc

def ConsumerPhase.callbackLocks (a : AlarmPtr) : ConsumerPhase → ℕ
  | running i _ => if i.alarm = a then 1 else 0
  | _ => 0

namespace Threads

/-- What the locks guarantee; `d` is the dispatcher thread. -/
structure Locked (d : Tid) (s : Threads) : Prop where
  exclusive : Exclusive Pc.holdsMonitor s.monitor s.pc
  dispatching : ∀ t, (s.pc t).isDispatch = true ↔ t = d
  transit : ∀ a, s.sys.dispatcher = .enqueue a → s.pc d = .dispatchEnqueue
  ready : ∀ t i, s.sys.consumer t = .ready i ↔ (s.pc t).serving = some i
  callbackLock : ∀ a t, (s.callbackLock a).depth t =
    (s.pc t).callbackLocks a + (s.sys.consumer t).callbackLocks a

namespace Locked

variable {d : Tid} {s s' : Threads} {t : Tid} {w v : Pc}

theorem init (isPeriodic : AlarmPtr → Bool) (capacity : QueuePtr → UInt64) (d : Tid) :
    Locked d (Threads.init isPeriodic capacity d) where
  exclusive t := by
    simp only [Threads.init]
    split_ifs <;> simp [Pc.holdsMonitor]
  dispatching t := by
    simp only [Threads.init]
    split_ifs with ht <;> simp [Pc.isDispatch, ht]
  transit a ha := by cases ha
  ready t i := by
    simp only [Threads.init, System.init]
    split_ifs <;> simp [Pc.serving]
  callbackLock a t := by
    simp only [Threads.init, System.init]
    split_ifs <;> rfl

theorem move (h : Locked d s) (hpc : s'.pc = Function.update s.pc t v)
    (hexclusive : Exclusive Pc.holdsMonitor s'.monitor s'.pc)
    (hdispatch : v.isDispatch = (s.pc t).isDispatch)
    (htransit : ∀ a, s'.sys.dispatcher = .enqueue a → v = .dispatchEnqueue ∨
      s.sys.dispatcher = .enqueue a ∧ s.pc t ≠ .dispatchEnqueue)
    (hready : ∀ i, s'.sys.consumer t = .ready i ↔ v.serving = some i)
    (hlock : ∀ a, (s'.callbackLock a).depth t =
      v.callbackLocks a + (s'.sys.consumer t).callbackLocks a)
    (hothers : ∀ u, u ≠ t → s'.sys.consumer u = s.sys.consumer u ∧
      ∀ a, (s'.callbackLock a).depth u = (s.callbackLock a).depth u) :
    Locked d s' := by
  have hself : s'.pc t = v := by rw [hpc, Function.update_self]
  have hne : ∀ u, u ≠ t → s'.pc u = s.pc u := by
    intro u hu
    rw [hpc, Function.update_of_ne hu]
  refine ⟨hexclusive, ?_, ?_, ?_, ?_⟩
  · intro u
    by_cases hu : u = t
    · subst hu
      rw [hself, hdispatch]
      exact h.dispatching u
    · rw [hne u hu]
      exact h.dispatching u
  · intro a ha
    rcases htransit a ha with rfl | ⟨hold, hpct⟩
    · have hd : t = d := (h.dispatching t).mp (hdispatch.symm.trans rfl)
      rw [← hd]
      exact hself
    · have hd : d ≠ t := by
        rintro rfl
        exact hpct (h.transit a hold)
      rw [hne d hd]
      exact h.transit a hold
  · intro u i
    by_cases hu : u = t
    · subst hu
      rw [hself]
      exact hready i
    · rw [hne u hu, (hothers u hu).1]
      exact h.ready u i
  · intro a u
    by_cases hu : u = t
    · subst hu
      rw [hself]
      exact hlock a
    · rw [hne u hu, (hothers u hu).1, (hothers u hu).2 a]
      exact h.callbackLock a u

/-- A move of `t` that leaves the `callback_lock`s and the served alarms as they
are. -/
theorem goto (h : Locked d s) (hw : s.pc t = w) (hpc : s'.pc = Function.update s.pc t v)
    (hlock : s'.callbackLock = s.callbackLock)
    (hconsumer : s'.sys.consumer = s.sys.consumer)
    (hexclusive : Exclusive Pc.holdsMonitor s'.monitor s'.pc)
    (hdispatch : v.isDispatch = w.isDispatch)
    (htransit : ∀ a, s'.sys.dispatcher = .enqueue a → v = .dispatchEnqueue ∨
      s.sys.dispatcher = .enqueue a ∧ w ≠ .dispatchEnqueue)
    (hserving : v.serving = w.serving)
    (hlocks : ∀ a, v.callbackLocks a = w.callbackLocks a) : Locked d s' := by
  subst hw
  refine h.move hpc hexclusive hdispatch htransit ?_ ?_ ?_
  · intro i
    rw [hconsumer, hserving]
    exact h.ready t i
  · intro a
    rw [hlock, hconsumer, hlocks a]
    exact h.callbackLock a t
  · intro u _
    rw [hlock, hconsumer]
    exact ⟨rfl, fun _ => rfl⟩

theorem call (h : Locked d s) {c : Call} (hidle : s.pc t = .idle) :
    Locked d { s with pc := Function.update s.pc t c.entry } := by
  refine h.goto hidle rfl rfl rfl (h.exclusive.move ?_) ?_ ?_ ?_ ?_
  · rw [hidle]
    cases c <;> rfl
  · cases c <;> rfl
  · intro a ha
    exact Or.inr ⟨ha, by simp⟩
  · cases c <;> rfl
  · intro a
    cases c <;> rfl

theorem lockMonitor (h : Locked d s) (hv : (s.pc t).afterLockMonitor = some v)
    (hfree : s.monitor = none) :
    Locked d { s with monitor := some t, pc := Function.update s.pc t v } := by
  obtain ⟨_, hholds, hdispatch, hpct, hserving, hlocks⟩ :=
    Pc.afterLockMonitor_eq_some hv
  have hexclusive := h.exclusive
  rw [hfree] at hexclusive
  exact h.goto rfl rfl rfl rfl (hexclusive.acquire hholds) hdispatch
    (fun a ha => Or.inr ⟨ha, hpct⟩) hserving hlocks

theorem unlockMonitor (h : Locked d s) (hv : (s.pc t).afterUnlockMonitor = some v) :
    Locked d { s with monitor := none, pc := Function.update s.pc t v } := by
  obtain ⟨hheld, hholds, hdispatch, hpct, hserving, hlocks⟩ :=
    Pc.afterUnlockMonitor_eq_some hv
  exact h.goto rfl rfl rfl rfl (h.exclusive.release hheld hholds) hdispatch
    (fun a ha => Or.inr ⟨ha, hpct⟩) hserving hlocks

/-- The `callback_lock` of `a` changes by what the points of `t` count of it. -/
theorem setCallbackLock (h : Locked d s) {a : AlarmPtr} {lock : RecursiveMutex Tid}
    (hholds : v.holdsMonitor = (s.pc t).holdsMonitor)
    (hdispatch : v.isDispatch = (s.pc t).isDispatch) (hpct : s.pc t ≠ .dispatchEnqueue)
    (hserving : v.serving = (s.pc t).serving)
    (hlocks : ∀ b, b ≠ a → v.callbackLocks b = (s.pc t).callbackLocks b)
    (hdepth : lock.depth t + (s.pc t).callbackLocks a =
      (s.callbackLock a).depth t + v.callbackLocks a)
    (hothers : ∀ u, u ≠ t → lock.depth u = (s.callbackLock a).depth u) :
    Locked d { s with
      callbackLock := Function.update s.callbackLock a lock
      pc := Function.update s.pc t v } := by
  refine h.move rfl (h.exclusive.move hholds) hdispatch
    (fun a ha => Or.inr ⟨ha, hpct⟩) ?_ ?_ ?_
  · intro i
    rw [hserving]
    exact h.ready t i
  · intro b
    have hb := h.callbackLock b t
    by_cases hba : b = a
    · subst hba
      simp only [Function.update_self]
      omega
    · simp only [Function.update_of_ne hba]
      rw [hlocks b hba]
      exact hb
  · intro u hu
    refine ⟨rfl, ?_⟩
    intro b
    by_cases hba : b = a
    · subst hba
      simp only [Function.update_self]
      exact hothers u hu
    · simp only [Function.update_of_ne hba]

theorem lockCallback (h : Locked d s) {a : AlarmPtr} {lock : RecursiveMutex Tid}
    (hv : (s.pc t).afterLockCallback = some (a, v))
    (hlock : (s.callbackLock a).lock t = some lock) :
    Locked d { s with
      callbackLock := Function.update s.callbackLock a lock
      pc := Function.update s.pc t v } := by
  obtain ⟨hholds, hdispatch, hpct, hserving, hcount, hlocks⟩ :=
    Pc.afterLockCallback_eq_some hv
  obtain ⟨hdepth, hothers⟩ := RecursiveMutex.depth_of_lock hlock
  refine h.setCallbackLock hholds hdispatch hpct hserving hlocks (by omega) ?_
  intro u hu
  obtain ⟨hold, hnew⟩ := hothers u hu
  rw [hold, hnew]

theorem unlockCallback (h : Locked d s) {a : AlarmPtr}
    (hv : (s.pc t).afterUnlockCallback = some (a, v)) :
    Locked d { s with
      callbackLock := Function.update s.callbackLock a (s.callbackLock a).unlock
      pc := Function.update s.pc t v } := by
  obtain ⟨hholds, hdispatch, hpct, hserving, hcount, hlocks⟩ :=
    Pc.afterUnlockCallback_eq_some hv
  have hheld : (s.callbackLock a).depth t ≠ 0 := by
    have := h.callbackLock a t
    omega
  obtain ⟨hdepth, hothers⟩ := RecursiveMutex.depth_unlock hheld
  exact h.setCallbackLock hholds hdispatch hpct hserving hlocks (by omega) hothers

theorem act (h : Locked d s) {l : Label} {sys' : System} (hsys : s.sys.step l = .ok sys')
    (hv : s.afterAct t l sys' = some v) :
    Locked d { s with sys := sys', pc := Function.update s.pc t v } := by
  cases act_cases hv with
  | set hpc =>
      cases System.step_cases hsys
      exact h.goto hpc rfl rfl rfl (h.exclusive.move (by rw [hpc]; rfl)) rfl
        (fun a ha => Or.inr ⟨ha, by simp⟩) rfl fun a => rfl
  | cancel hpc =>
      cases System.step_cases hsys
      exact h.goto hpc rfl rfl rfl (h.exclusive.move (by rw [hpc]; rfl)) rfl
        (fun a ha => Or.inr ⟨ha, by simp⟩) rfl fun a => rfl
  | dequeueSome hpc hready =>
      cases System.step_cases hsys with
      | dequeueNone hquiet hidle hmod =>
          exact absurd (hidle.symm.trans hready) (by simp)
      | dequeueSome hquiet hidle hmod =>
          refine h.move rfl (h.exclusive.move (by rw [hpc]; rfl)) (by rw [hpc]; rfl)
            (fun a ha => Or.inr ⟨ha, by rw [hpc]; simp⟩) ?_ ?_ ?_
          · intro i
            rw [hready]
            simp [Pc.serving]
          · intro a
            have ha := h.callbackLock a t
            rw [hpc, hidle] at ha
            rw [hready]
            exact ha
          · intro u hu
            exact ⟨Function.update_of_ne hu _ _, fun _ => rfl⟩
  | dequeueNone hpc hready =>
      cases System.step_cases hsys with
      | dequeueNone hquiet hidle hmod =>
          exact h.goto hpc rfl rfl rfl (h.exclusive.move (by rw [hpc]; rfl)) rfl
            (fun a ha => Or.inr ⟨ha, by simp⟩) rfl fun a => rfl
      | dequeueSome hquiet hidle hmod =>
          exact absurd (Function.update_self t _ _) (hready _)
  | @invoke i t0 hpc =>
      have hi : s.sys.consumer t = .ready i := (h.ready t i).mpr (by rw [hpc]; rfl)
      cases System.step_cases hsys with
      | @invoke _ _ j hj =>
          obtain rfl : i = j := by simpa using hi.symm.trans hj
          refine h.move rfl (h.exclusive.move (by rw [hpc]; rfl)) (by rw [hpc]; rfl)
            (fun a ha => Or.inr ⟨ha, by rw [hpc]; simp⟩) ?_ ?_ ?_
          · intro k
            simp [Pc.serving]
          · intro a
            have ha := h.callbackLock a t
            rw [hpc, hi] at ha
            simp only [System.record_consumer, Function.update_self]
            simpa [Pc.callbackLocks, ConsumerPhase.callbackLocks] using ha
          · intro u hu
            exact ⟨Function.update_of_ne hu _ _, fun _ => rfl⟩
  | @finish i t0 t1 hpc hrunning =>
      cases System.step_cases hsys with
      | finish hj =>
          refine h.move rfl (h.exclusive.move (by rw [hpc]; rfl)) (by rw [hpc]; rfl)
            (fun a ha => Or.inr ⟨ha, by rw [hpc]; simp⟩) ?_ ?_ ?_
          · intro k
            simp [Pc.serving]
          · intro a
            have ha := h.callbackLock a t
            rw [hpc, hrunning] at ha
            simp only [System.record_consumer, Function.update_self]
            simpa [Pc.callbackLocks, ConsumerPhase.callbackLocks] using ha
          · intro u hu
            exact ⟨Function.update_of_ne hu _ _, fun _ => rfl⟩
  | take hpc =>
      cases System.step_cases hsys
      exact h.goto hpc rfl rfl rfl (h.exclusive.move (by rw [hpc]; rfl)) rfl
        (fun a ha => by cases ha) rfl fun a => rfl
  | dispatchSome hpc htransit =>
      have hconsumer : sys'.consumer = s.sys.consumer := by
        cases System.step_cases hsys <;> rfl
      exact h.goto hpc rfl rfl hconsumer (h.exclusive.move (by rw [hpc]; rfl)) rfl
        (fun a ha => Or.inl rfl) rfl fun a => rfl
  | dispatchNone hpc htransit =>
      have hconsumer : sys'.consumer = s.sys.consumer := by
        cases System.step_cases hsys <;> rfl
      exact h.goto hpc rfl rfl hconsumer (h.exclusive.move (by rw [hpc]; rfl)) rfl
        (fun a ha => absurd ha (htransit a)) rfl fun a => rfl
  | enqueue hpc =>
      cases System.step_cases hsys
      exact h.goto hpc rfl rfl rfl (h.exclusive.move (by rw [hpc]; rfl)) rfl
        (fun a ha => by cases ha) rfl fun a => rfl

theorem expire (h : Locked d s) {l : Label} {sys' : System} (hl : l.isExpiry = true)
    (hsys : s.sys.step l = .ok sys') : Locked d { s with sys := sys' } := by
  have hsame : sys'.consumer = s.sys.consumer ∧ sys'.dispatcher = s.sys.dispatcher := by
    cases System.step_cases hsys <;> first | exact ⟨rfl, rfl⟩ | cases hl
  refine ⟨h.exclusive, h.dispatching, ?_, ?_, ?_⟩
  · simp only [hsame.2]
    exact h.transit
  · simp only [hsame.1]
    exact h.ready
  · simp only [hsame.1]
    exact h.callbackLock

theorem step (h : Locked d s) {l : ThreadLabel} (hs' : s.step l = .ok s') :
    Locked d s' := by
  cases step_cases hs' with
  | call hidle hready => exact h.call hidle
  | lockMonitor hv hfree => exact h.lockMonitor hv hfree
  | unlockMonitor hv => exact h.unlockMonitor hv
  | lockCallback hv hlock => exact h.lockCallback hv hlock
  | unlockCallback hv => exact h.unlockCallback hv
  | act hsys hv => exact h.act hsys hv
  | expire hl hsys => exact h.expire hl hsys

/-- The sections of the other threads find the dispatcher outside its own: what
`System` calls `Quiet` is what the monitor enforces. -/
theorem quiet (h : Locked d s) (ht : (s.pc t).holdsMonitor = true) (htd : t ≠ d) :
    s.sys.Quiet := by
  cases hdispatcher : s.sys.dispatcher with
  | waiting => simp [System.Quiet, System.inTransit, hdispatcher]
  | token => simp [System.Quiet, System.inTransit, hdispatcher]
  | enqueue a =>
      have hd : (s.pc d).holdsMonitor = true := by
        rw [h.transit a hdispatcher]
        rfl
      exact absurd (h.exclusive.unique ht hd) htd

end Locked

theorem locked_of_reachable {guard : Threads → ThreadLabel → Prop}
    {isPeriodic : AlarmPtr → Bool} {capacity : QueuePtr → UInt64} {d : Tid} {s : Threads}
    (h : Reachable (Guarded guard (Next step)) (init isPeriodic capacity d) s) :
    Locked d s :=
  h.invariant (fun _ _ _ hs hstep => hs.step hstep.2) (Locked.init isPeriodic capacity d)

end Threads

end Alarm

end Osi
