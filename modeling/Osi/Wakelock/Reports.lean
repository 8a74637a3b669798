import Osi.Wakelock.Statistics
import Osi.Transition.Calls

/-!
# What the statistics report

Two readings of the statistics are compared with what they stand for. The dump of
the acquired lock is compared with the dump after a release at the same time: the
release sets the minimum at the first interval whatever it was, and the dump does
not. And the state that the statistics keep is compared with a reference that
follows the successful calls only: the updates change the state whatever the
status is, so a call that fails in the wrong state is recorded as one that
succeeded.
-/

namespace Osi

namespace Wakelock

open Transition

/-! ## The dump of the acquired lock -/

/-- The times that a dump shows: last, minimum, maximum, average and total. -/
structure Times where
  last : UInt64
  min : UInt64
  max : UInt64
  ave : UInt64
  total : UInt64
  deriving DecidableEq, Repr

def Dump.times (d : Dump) : Times where
  last := d.lastInterval
  min := d.minInterval
  max := d.maxInterval
  ave := d.aveInterval
  total := d.totalInterval

def average (total : UInt64) (count : ℕ) : UInt64 :=
  if 0 < count then UInt64.ofNat (total.toNat / count) else 0

theorem divide_eq_average (total : UInt64) (count : ℕ) :
    (if 0 < count then divide total count else some 0) = some (average total count) := by
  unfold average divide
  by_cases hcount : 0 < count
  · rw [if_pos hcount, if_pos hcount, if_neg hcount.ne']
  · rw [if_neg hcount, if_neg hcount]

theorem times_of_acquired {stats : Stats} (hacq : stats.isAcquired = true) (t : UInt64) :
    (debugDump stats t).map Dump.times =
      some
        { last := t - stats.lastAcquiredTimestampMs
          min := if t - stats.lastAcquiredTimestampMs < stats.minAcquiredIntervalMs then
              t - stats.lastAcquiredTimestampMs else stats.minAcquiredIntervalMs
          max := if stats.maxAcquiredIntervalMs < t - stats.lastAcquiredTimestampMs then
              t - stats.lastAcquiredTimestampMs else stats.maxAcquiredIntervalMs
          ave := average (stats.totalAcquiredIntervalMs + (t - stats.lastAcquiredTimestampMs))
            stats.acquiredCount
          total := stats.totalAcquiredIntervalMs + (t - stats.lastAcquiredTimestampMs) } := by
  simp only [debugDump, hacq, if_true, true_and, divide_eq_average, Option.map_some, Dump.times]

/-- The dump of the released lock shows the statistics as they are. -/
theorem times_of_released {stats : Stats} (hacq : stats.isAcquired = false) (t : UInt64) :
    (debugDump stats t).map Dump.times =
      some
        { last := stats.lastAcquiredIntervalMs
          min := stats.minAcquiredIntervalMs
          max := stats.maxAcquiredIntervalMs
          ave := average stats.totalAcquiredIntervalMs stats.acquiredCount
          total := stats.totalAcquiredIntervalMs } := by
  simp only [debugDump, hacq, Bool.false_eq_true, if_false, false_and, UInt64.add_zero,
    divide_eq_average, Option.map_some, Dump.times]

/-- The two dumps differ at most in the minimum. -/
theorem times_eq_iff {g : Globals} (hacq : g.stats.isAcquired = true) (status : BtStatus)
    (t : UInt64) :
    (debugDump g.stats t).map Dump.times =
        (debugDump (updateReleasedStats g status t).stats t).map Dump.times ↔
      (if t - g.stats.lastAcquiredTimestampMs < g.stats.minAcquiredIntervalMs then
          t - g.stats.lastAcquiredTimestampMs else g.stats.minAcquiredIntervalMs) =
        if t - g.stats.lastAcquiredTimestampMs < g.stats.minAcquiredIntervalMs ∨
            g.stats.releasedCount + 1 = 1 then
          t - g.stats.lastAcquiredTimestampMs else g.stats.minAcquiredIntervalMs := by
  have hrelease : (updateReleasedStats g status t).stats = closeInterval
      { g.stats with releasedErrors := countError g.stats.releasedErrors status } t := by
    simp only [updateReleasedStats, hacq, if_true]
  rw [times_of_acquired hacq, hrelease, times_of_released rfl]
  simp [closeInterval]

/-- In every state that calls reach after `reset_wakelock_stats` in which the lock is
acquired, and at every time, those before the acquisition included: the dump shows
the times that it would show after a release at that time exactly if an interval was
closed before, or the open one has the length zero. -/
theorem dump_agrees_iff (g₀ : Globals) (t₀ : UInt64) (g : Globals)
    (h : Reachable (Next step) (reset g₀ t₀) g) (hacq : g.stats.isAcquired = true)
    (status : BtStatus) (t : UInt64) :
    (debugDump g.stats t).isSome = true ∧
    ((debugDump g.stats t).map Dump.times =
        (debugDump (updateReleasedStats g status t).stats t).map Dump.times ↔
      0 < g.stats.releasedCount ∨ t = g.stats.lastAcquiredTimestampMs) := by
  have hsome : (debugDump g.stats t).isSome = true := by
    rw [← Option.isSome_map (f := Dump.times), times_of_acquired hacq]
    rfl
  refine ⟨hsome, ?_⟩
  rw [times_eq_iff hacq]
  obtain ⟨pairs, hinv⟩ := consistent_of_reachable h
  by_cases hpairs : pairs = []
  · -- nothing was closed: the minimum is still zero
    have hcount : g.stats.releasedCount = 0 := by rw [hinv.releasedCount, hpairs]; rfl
    have hnotLt : ¬ t - g.stats.lastAcquiredTimestampMs < 0 := UInt64.not_lt_zero
    rw [(hinv.none hpairs).1, hcount, if_neg hnotLt, if_pos (Or.inr rfl), eq_comm,
      UInt64.sub_eq_iff_eq_add, UInt64.zero_add]
    simp
  · have hpos : 0 < g.stats.releasedCount := by
      rw [hinv.releasedCount]
      exact List.length_pos_iff.mpr hpairs
    have hmany : ¬ g.stats.releasedCount + 1 = 1 := by omega
    simp only [hmany, or_false, hpos, true_or]

/-- The second interval is open, and the first one was longer. -/
theorem dump_agrees_iff_secondInterval :
    ∃ g, Reachable (Next step) (reset uninitialized 5) g ∧
      g.stats.isAcquired = true ∧ g.stats.minAcquiredIntervalMs = 8 ∧
      (debugDump g.stats 33).map Dump.times =
        (debugDump (updateReleasedStats g .success 33).stats 33).map Dump.times := by
  have hend : ((exec (fun _ _ => true) step (reset uninitialized 5)
      [.acquire ⟨12, .success, 15⟩, .release ⟨20, .success, 15⟩,
        .acquire ⟨30, .success, 15⟩]).any fun g =>
      decide (g.stats.isAcquired = true ∧ g.stats.minAcquiredIntervalMs = 8 ∧
        0 < g.stats.releasedCount)) = true := by
    decide
  obtain ⟨g, hg, hend⟩ := (Option.any_eq_true _ _).mp hend
  obtain ⟨hacq, hmin, hcount⟩ := of_decide_eq_true hend
  have hreach := Reachable.of_exec_true hg
  have hagrees := dump_agrees_iff uninitialized 5 g hreach hacq .success 33
  exact ⟨g, hreach, hacq, hmin, hagrees.2.mpr (.inl hcount)⟩

/-- The lock was acquired for the first time at 12. At 17 the dump shows the minimum
0, and after a release at 17 it shows 5. -/
theorem dump_disagrees_firstInterval :
    ∃ g, Reachable (Next step) (reset uninitialized 5) g ∧
      g.stats.isAcquired = true ∧ g.stats.lastAcquiredTimestampMs ≤ 17 ∧
      (debugDump g.stats 17).map Dump.minInterval = some 0 ∧
      (debugDump (updateReleasedStats g .success 17).stats 17).map Dump.minInterval =
        some 5 := by
  have hend : ((exec (fun _ _ => true) step (reset uninitialized 5)
      [.acquire ⟨12, .success, 15⟩]).any fun g =>
      decide (g.stats.isAcquired = true ∧ g.stats.lastAcquiredTimestampMs ≤ 17 ∧
        (debugDump g.stats 17).map Dump.minInterval = some 0 ∧
        (debugDump (updateReleasedStats g .success 17).stats 17).map Dump.minInterval =
          some 5)) = true := by
    decide
  obtain ⟨g, hg, hend⟩ := (Option.any_eq_true _ _).mp hend
  exact ⟨g, Reachable.of_exec_true hg, of_decide_eq_true hend⟩

/-! ## The state of the lock -/

def call (g : Globals) : Label → Globals × Bool
  | .acquire env => wakelockAcquire g env
  | .release env => wakelockRelease g env

def status (g : Globals) : Label → BtStatus
  | .acquire env => if g.isNative then (acquireNative g env).2 else env.callout
  | .release env => if g.isNative then releaseNative g else env.callout

/-- The state of the lock according to the successful calls, and how often it
changed. -/
structure Reference where
  held : Bool
  acquired : ℕ
  released : ℕ
  deriving DecidableEq, Repr

def Reference.start : Reference where
  held := false
  acquired := 0
  released := 0

/-- A call whose implementation returns `status`; one that fails changes nothing. -/
def Reference.step (r : Reference) (status : BtStatus) : Label → Reference
  | .acquire _ =>
      if status = .success ∧ r.held = false then
        { r with held := true, acquired := r.acquired + 1 }
      else r
  | .release _ =>
      if status = .success ∧ r.held = true then
        { r with held := false, released := r.released + 1 }
      else r

def watch (w : Globals × Reference) (l : Label) : (Globals × Reference) × Bool :=
  let (g, result) := call w.1 l
  ((g, w.2.step (status w.1 l) l), result)

def watched (g₀ : Globals) (t₀ : UInt64) (ls : List Label) : Globals × Reference :=
  (calls watch (reset g₀ t₀, .start) ls).1

structure Agrees (w : Globals × Reference) : Prop where
  isAcquired : w.1.stats.isAcquired = w.2.held
  acquiredCount : w.1.stats.acquiredCount = w.2.acquired
  releasedCount : w.1.stats.releasedCount = w.2.released

/-- Only counters of errors differ, and no event was sent. -/
def OnlyErrors (g g' : Globals) : Prop :=
  g'.events = g.events ∧
    ∃ acquiredErrors releasedErrors, g'.stats =
      { g.stats with acquiredErrors := acquiredErrors, releasedErrors := releasedErrors }

/-- The call leaves statistics that show the state of the reference, and if it fails
it changes nothing but the counters of errors. -/
def Truthful (w : Globals × Reference) (l : Label) : Prop :=
  Agrees (watch w l).1 ∧ (status w.1 l ≠ .success → OnlyErrors w.1 (watch w l).1.1)

def Label.target : Label → Bool
  | .acquire _ => true
  | .release _ => false

/-- If the call fails, then the reference is already in the state that the call is to
bring about. -/
def Harmless (w : Globals × Reference) (l : Label) : Prop :=
  status w.1 l ≠ .success → w.2.held = l.target

/-- What the implementation of `wakelock_acquire` does to the module is not seen by
the statistics. -/
theorem call_acquire (g : Globals) (env : Env) :
    ∃ g' status, g'.stats = g.stats ∧ g'.events = g.events ∧
      (call g (.acquire env)).1 = updateAcquiredStats g' status env.nowMs := by
  refine ⟨(if g.isNative then acquireNative g env else (g, env.callout)).1,
    (if g.isNative then acquireNative g env else (g, env.callout)).2, ?_, ?_, rfl⟩
  · unfold acquireNative
    split_ifs <;> rfl
  · unfold acquireNative
    split_ifs <;> rfl

theorem call_acquire_of_held {g : Globals} (hacq : g.stats.isAcquired = true) (env : Env) :
    OnlyErrors g (call g (.acquire env)).1 := by
  obtain ⟨g', status, hstats, hevents, hcall⟩ := call_acquire g env
  have hupdate : updateAcquiredStats g' status env.nowMs = { g' with
      stats := { g'.stats with acquiredErrors := countError g'.stats.acquiredErrors status }
      clock := env.nowMs } := by
    rw [← hstats] at hacq
    exact if_pos hacq
  rw [hcall, hupdate, OnlyErrors, ← hstats]
  exact ⟨hevents, countError g'.stats.acquiredErrors status, g'.stats.releasedErrors, rfl⟩

theorem call_acquire_of_not_held {g : Globals} (hacq : g.stats.isAcquired = false) (env : Env) :
    (call g (.acquire env)).1.stats.isAcquired = true ∧
      (call g (.acquire env)).1.stats.acquiredCount = g.stats.acquiredCount + 1 ∧
      (call g (.acquire env)).1.stats.releasedCount = g.stats.releasedCount := by
  obtain ⟨g', status, hstats, -, hcall⟩ := call_acquire g env
  rw [← hstats] at hacq ⊢
  rw [hcall]
  simp [updateAcquiredStats, hacq]

theorem call_release_of_not_held {g : Globals} (hacq : g.stats.isAcquired = false) (env : Env) :
    OnlyErrors g (call g (.release env)).1 := by
  have hupdate : ∀ status, updateReleasedStats g status env.nowMs = { g with
      stats := { g.stats with releasedErrors := countError g.stats.releasedErrors status }
      clock := env.nowMs } := by
    intro status
    refine if_neg ?_
    rw [hacq]
    exact Bool.false_ne_true
  rw [call, wakelockRelease, hupdate]
  exact ⟨rfl, g.stats.acquiredErrors, _, rfl⟩

/-- `wakelock_release` of the acquired lock, whatever its status is. -/
theorem call_release_of_held {g : Globals} (hacq : g.stats.isAcquired = true) (env : Env) :
    (call g (.release env)).1.stats.isAcquired = false ∧
      (call g (.release env)).1.stats.acquiredCount = g.stats.acquiredCount ∧
      (call g (.release env)).1.stats.releasedCount = g.stats.releasedCount + 1 := by
  simp [call, wakelockRelease, updateReleasedStats, hacq, closeInterval]

/-- A call that finds the lock in the state it is to bring about. -/
theorem onlyErrors_of_target {g : Globals} {l : Label} (h : g.stats.isAcquired = l.target) :
    OnlyErrors g (call g l).1 := by
  cases l with
  | acquire env => exact call_acquire_of_held h env
  | release env => exact call_release_of_not_held h env

/-- A call that does not is recorded like a successful one. -/
theorem agrees_of_not_target {g : Globals} {r : Reference} {l : Label} (h : Agrees (g, r))
    (hheld : r.held ≠ l.target) : Agrees ((call g l).1, r.step .success l) := by
  have hacq : g.stats.isAcquired = r.held := h.isAcquired
  cases l with
  | acquire env =>
      have hheld : r.held = false := Bool.eq_false_of_not_eq_true hheld
      obtain ⟨hacquired, hcount, hreleased⟩ := call_acquire_of_not_held (hacq.trans hheld) env
      have hstep : r.step .success (.acquire env) =
          { r with held := true, acquired := r.acquired + 1 } := by
        simp [Reference.step, hheld]
      rw [hstep]
      exact ⟨hacquired, hcount.trans (congrArg (· + 1) h.acquiredCount),
        hreleased.trans h.releasedCount⟩
  | release env =>
      have hheld : r.held = true := Bool.eq_true_of_not_eq_false hheld
      obtain ⟨hacquired, hcount, hreleased⟩ := call_release_of_held (hacq.trans hheld) env
      have hstep : r.step .success (.release env) =
          { r with held := false, released := r.released + 1 } := by
        simp [Reference.step, hheld]
      rw [hstep]
      exact ⟨hacquired, hcount.trans h.acquiredCount,
        hreleased.trans (congrArg (· + 1) h.releasedCount)⟩

theorem OnlyErrors.agrees {g g' : Globals} {r : Reference} (h : OnlyErrors g g')
    (hagrees : Agrees (g, r)) : Agrees (g', r) := by
  obtain ⟨-, acquiredErrors, releasedErrors, hstats⟩ := h
  refine ⟨?_, ?_, ?_⟩
  · rw [hstats]
    exact hagrees.isAcquired
  · rw [hstats]
    exact hagrees.acquiredCount
  · rw [hstats]
    exact hagrees.releasedCount

theorem Reference.step_of_target {r : Reference} {l : Label} (h : r.held = l.target)
    (status : BtStatus) : r.step status l = r := by
  cases l with
  | acquire env =>
      have hheld : r.held = true := h
      simp [Reference.step, hheld]
  | release env =>
      have hheld : r.held = false := h
      simp [Reference.step, hheld]

theorem Reference.step_of_failed {status : BtStatus} (h : status ≠ .success) (r : Reference)
    (l : Label) : r.step status l = r := by
  cases l <;> simp [Reference.step, h]

theorem Reference.held_step_success (r : Reference) (l : Label) :
    (r.step .success l).held = l.target := by
  cases l <;> cases hheld : r.held <;> simp [Reference.step, Label.target, hheld]

theorem watch_eq (g : Globals) (r : Reference) (l : Label) :
    watch (g, r) l = (((call g l).1, r.step (status g l) l), (call g l).2) := rfl

theorem agrees_watch_iff {w : Globals × Reference} (h : Agrees w) (l : Label) :
    Agrees (watch w l).1 ↔ Harmless w l := by
  obtain ⟨g, r⟩ := w
  by_cases hheld : r.held = l.target
  · refine iff_of_true ?_ fun _ => hheld
    rw [watch_eq, Reference.step_of_target hheld]
    exact (onlyErrors_of_target (h.isAcquired.trans hheld)).agrees h
  · have hcall := agrees_of_not_target h hheld
    by_cases hsuccess : status g l = .success
    · refine iff_of_true ?_ fun hfailed => absurd hsuccess hfailed
      rw [watch_eq, hsuccess]
      exact hcall
    · -- the statistics follow the call, the reference does not
      refine iff_of_false (fun hagrees => ?_) fun hharmless => hheld (hharmless hsuccess)
      rw [watch_eq, Reference.step_of_failed hsuccess] at hagrees
      have htarget := hcall.isAcquired.trans (r.held_step_success l)
      exact hheld (hagrees.isAcquired.symm.trans htarget)

theorem Harmless.onlyErrors {w : Globals × Reference} {l : Label} (h : Harmless w l)
    (hagrees : Agrees w) (hfailed : status w.1 l ≠ .success) :
    OnlyErrors w.1 (watch w l).1.1 :=
  onlyErrors_of_target (hagrees.isAcquired.trans (h hfailed))

theorem agrees_start (g₀ : Globals) (t₀ : UInt64) : Agrees (reset g₀ t₀, .start) where
  isAcquired := rfl
  acquiredCount := rfl
  releasedCount := rfl

/-- For every sequence of calls of `wakelock_acquire` and `wakelock_release` after
`reset_wakelock_stats`, with any statuses: every call leaves statistics that show the
state of the reference, and changes nothing but the counters of errors if it fails,
exactly if every call that fails is made when the reference is already in the state
that the call is to bring about. -/
theorem statistics_truthful_iff (g₀ : Globals) (t₀ : UInt64) (ls : List Label) :
    (∀ pre l post, ls = pre ++ l :: post → Truthful (watched g₀ t₀ pre) l) ↔
      ∀ pre l post, ls = pre ++ l :: post → Harmless (watched g₀ t₀ pre) l := by
  have hstep : ∀ (w : Globals × Reference) l, True → Agrees w →
      (Agrees (watch w l).1 ↔ Harmless w l) := fun w l _ h => agrees_watch_iff h l
  have halong := calls_along_iff (fun _ _ _ => trivial) hstep trivial (agrees_start g₀ t₀) ls
  constructor
  · intro htruthful
    refine halong.mp fun pre post hsplit => ?_
    rcases List.eq_nil_or_concat pre with rfl | ⟨pre, l, rfl⟩
    · exact agrees_start g₀ t₀
    · rw [List.concat_eq_append] at hsplit ⊢
      rw [calls_concat]
      exact (htruthful pre l post (by rw [hsplit, List.append_assoc]; rfl)).1
  · intro hharmless pre l post hsplit
    have hagrees := halong.mpr hharmless pre (l :: post) hsplit
    have hl := hharmless pre l post hsplit
    exact ⟨(agrees_watch_iff hagrees l).mpr hl, hl.onlyErrors hagrees⟩

/-- The callout refuses the first acquire: the statistics show an acquired lock and
an event was sent. -/
theorem statistics_untruthful_failedAcquire :
    status (watched uninitialized 5 []).1 (.acquire ⟨12, .fail, 15⟩) = .fail ∧
      ¬ Truthful (watched uninitialized 5 []) (.acquire ⟨12, .fail, 15⟩) ∧
      (watched uninitialized 5 [.acquire ⟨12, .fail, 15⟩]).1.stats.isAcquired = true ∧
      (watched uninitialized 5 [.acquire ⟨12, .fail, 15⟩]).2.held = false ∧
      (watched uninitialized 5 [.acquire ⟨12, .fail, 15⟩]).1.events.length = 1 := by
  refine ⟨by decide, ?_, by decide, by decide, by decide⟩
  intro htruthful
  have hagrees : true = false := htruthful.1.isAcquired
  cases hagrees

end Wakelock

end Osi
