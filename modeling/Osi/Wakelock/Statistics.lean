import Osi.Wakelock.Basic
import Mathlib.Algebra.Order.BigOperators.Group.List
import Mathlib.Algebra.Order.Group.Nat

/-!
# The statistics over a run

The events that are sent to the metrics delimit intervals: an `ACQUIRED` opens
one and the `RELEASED` that follows closes it. The counters, the sum and the
extrema that `wakelock.c` maintains are those of the closed intervals. The
intervals are disjoint and the clock does not go back, so their sum is at most
the present time and no sum or difference wraps around. The dump adds the open
interval, if there is one, to both the sum and the extrema, and so its average
lies between them.
-/

namespace Osi

namespace Wakelock

open Transition

def closedIntervals : List WakeEvent → List ℕ
  | opening :: closing :: events =>
      (closing.timestampMs.toNat - opening.timestampMs.toNat) :: closedIntervals events
  | _ => []

def Alternate : WakeEventType → List WakeEvent → Prop
  | _, [] => True
  | .acquired, event :: events => event.type = .acquired ∧ Alternate .released events
  | .released, event :: events => event.type = .released ∧ Alternate .acquired events

def IsMin (n : ℕ) (l : List ℕ) : Prop := n ∈ l ∧ ∀ m ∈ l, n ≤ m

def IsMax (n : ℕ) (l : List ℕ) : Prop := n ∈ l ∧ ∀ m ∈ l, m ≤ n

theorem IsMin.concat {n m : ℕ} {l : List ℕ} (h : IsMin n l) : IsMin (min m n) (l ++ [m]) := by
  obtain ⟨hmem, hle⟩ := h
  refine ⟨?_, ?_⟩
  · rcases Nat.le_total m n with hmn | hmn
    · simp [Nat.min_eq_left hmn]
    · simp [Nat.min_eq_right hmn, hmem]
  · intro k hk
    rcases List.mem_append.mp hk with hk | hk
    · exact (Nat.min_le_right m n).trans (hle k hk)
    · rw [List.mem_singleton.mp hk]
      exact Nat.min_le_left m n

theorem IsMax.concat {n m : ℕ} {l : List ℕ} (h : IsMax n l) : IsMax (max m n) (l ++ [m]) := by
  obtain ⟨hmem, hle⟩ := h
  refine ⟨?_, ?_⟩
  · rcases Nat.le_total m n with hmn | hmn
    · simp [Nat.max_eq_right hmn, hmem]
    · simp [Nat.max_eq_left hmn]
  · intro k hk
    rcases List.mem_append.mp hk with hk | hk
    · exact (hle k hk).trans (Nat.le_max_right m n)
    · rw [List.mem_singleton.mp hk]
      exact Nat.le_max_left m n

theorem isMin_singleton (n : ℕ) : IsMin n [n] := by simp [IsMin]

theorem isMax_singleton (n : ℕ) : IsMax n [n] := by simp [IsMax]

/-- A number between the bounds of the elements of a list is between the bounds of
its average. -/
theorem le_average {l : List ℕ} (hl : l ≠ []) {m : ℕ} (h : ∀ x ∈ l, m ≤ x) :
    m ≤ l.sum / l.length := by
  have hpos := List.length_pos_iff.mpr hl
  rw [Nat.le_div_iff_mul_le hpos, Nat.mul_comm]
  exact l.card_nsmul_le_sum m h

theorem average_le {l : List ℕ} (hl : l ≠ []) {m : ℕ} (h : ∀ x ∈ l, x ≤ m) :
    l.sum / l.length ≤ m := by
  have hpos := List.length_pos_iff.mpr hl
  refine Nat.div_le_of_le_mul ?_
  exact l.sum_le_card_nsmul m h

/-! ## The events of a list of intervals -/

def acquiredEvent (t : UInt64) : WakeEvent :=
  { type := .acquired, name := wakeLockId, timestampMs := t }

def releasedEvent (t : UInt64) : WakeEvent :=
  { type := .released, name := wakeLockId, timestampMs := t }

def pairEvents (pairs : List (UInt64 × UInt64)) : List WakeEvent :=
  pairs.flatMap fun p => [acquiredEvent p.1, releasedEvent p.2]

def lengths (pairs : List (UInt64 × UInt64)) : List ℕ :=
  pairs.map fun p => p.2.toNat - p.1.toNat

/-- The opening event of the interval that is not closed. -/
def openEvents (stats : Stats) : List WakeEvent :=
  if stats.isAcquired then [acquiredEvent stats.lastAcquiredTimestampMs] else []

theorem pairEvents_cons (p : UInt64 × UInt64) (pairs : List (UInt64 × UInt64)) :
    pairEvents (p :: pairs) = acquiredEvent p.1 :: releasedEvent p.2 :: pairEvents pairs := rfl

theorem pairEvents_concat (pairs : List (UInt64 × UInt64)) (p : UInt64 × UInt64) :
    pairEvents (pairs ++ [p]) = pairEvents pairs ++ [acquiredEvent p.1, releasedEvent p.2] := by
  simp [pairEvents]

theorem closedIntervals_append (pairs : List (UInt64 × UInt64)) (events : List WakeEvent) :
    closedIntervals (pairEvents pairs ++ events) = lengths pairs ++ closedIntervals events := by
  induction pairs with
  | nil => rfl
  | cons p pairs ih =>
      rw [pairEvents_cons, List.cons_append, List.cons_append, closedIntervals, ih]
      rfl

theorem alternate_append (pairs : List (UInt64 × UInt64)) {events : List WakeEvent}
    (h : Alternate .acquired events) : Alternate .acquired (pairEvents pairs ++ events) := by
  induction pairs with
  | nil => exact h
  | cons p pairs ih => exact ⟨rfl, rfl, ih⟩

theorem closedIntervals_openEvents (stats : Stats) : closedIntervals (openEvents stats) = [] := by
  unfold openEvents
  split <;> rfl

theorem alternate_openEvents (stats : Stats) : Alternate .acquired (openEvents stats) := by
  unfold openEvents
  split
  · exact ⟨rfl, trivial⟩
  · trivial

/-- The comparisons of the code give the minimum and the maximum. -/
theorem toNat_ite_min (x y : UInt64) :
    (if x < y then x else y).toNat = min x.toNat y.toNat := by
  by_cases h : x < y
  · rw [if_pos h, Nat.min_eq_left (UInt64.lt_iff_toNat_lt.mp h).le]
  · rw [if_neg h, Nat.min_eq_right (Nat.le_of_not_lt fun hlt => h (UInt64.lt_iff_toNat_lt.mpr hlt))]

theorem toNat_ite_max (x y : UInt64) :
    (if y < x then x else y).toNat = max x.toNat y.toNat := by
  by_cases h : y < x
  · rw [if_pos h, Nat.max_eq_left (UInt64.lt_iff_toNat_lt.mp h).le]
  · rw [if_neg h, Nat.max_eq_right (Nat.le_of_not_lt fun hlt => h (UInt64.lt_iff_toNat_lt.mpr hlt))]

/-! ## The invariant -/

structure Consistent (g : Globals) (pairs : List (UInt64 × UInt64)) : Prop where
  events : g.events = pairEvents pairs ++ openEvents g.stats
  acquiredCount : g.stats.acquiredCount = pairs.length + g.stats.isAcquired.toNat
  releasedCount : g.stats.releasedCount = pairs.length
  total : g.stats.totalAcquiredIntervalMs.toNat = (lengths pairs).sum
  /-- the closed intervals end before the open one starts -/
  openAfter : g.stats.isAcquired = true →
    (lengths pairs).sum ≤ g.stats.lastAcquiredTimestampMs.toNat ∧
      g.stats.lastAcquiredTimestampMs ≤ g.clock
  before : (lengths pairs).sum ≤ g.clock.toNat
  min : pairs ≠ [] → IsMin g.stats.minAcquiredIntervalMs.toNat (lengths pairs)
  max : pairs ≠ [] → IsMax g.stats.maxAcquiredIntervalMs.toNat (lengths pairs)
  last : pairs ≠ [] → (lengths pairs).getLast? = some g.stats.lastAcquiredIntervalMs.toNat
  none : pairs = [] → g.stats.minAcquiredIntervalMs = 0 ∧ g.stats.maxAcquiredIntervalMs = 0

theorem consistent_reset (g : Globals) (nowMs : UInt64) : Consistent (reset g nowMs) [] where
  events := rfl
  acquiredCount := rfl
  releasedCount := rfl
  total := rfl
  openAfter h := by cases h
  before := Nat.zero_le _
  min h := absurd rfl h
  max h := absurd rfl h
  last h := absurd rfl h
  none _ := ⟨rfl, rfl⟩

theorem Consistent.congr {g g' : Globals} {pairs : List (UInt64 × UInt64)}
    (h : Consistent g pairs) (hevents : g'.events = g.events) (hclock : g.clock ≤ g'.clock)
    (hstats : ∃ a r, g'.stats = { g.stats with acquiredErrors := a, releasedErrors := r }) :
    Consistent g' pairs := by
  obtain ⟨a, r, hstats⟩ := hstats
  have hle : g.clock.toNat ≤ g'.clock.toNat := UInt64.le_iff_toNat_le.mp hclock
  refine ⟨?_, ?_, ?_, ?_, ?_, h.before.trans hle, ?_, ?_, ?_, ?_⟩
  · rw [hevents, h.events, hstats]
    rfl
  · rw [hstats]
    exact h.acquiredCount
  · rw [hstats]
    exact h.releasedCount
  · rw [hstats]
    exact h.total
  · rw [hstats]
    intro hacq
    exact ⟨(h.openAfter hacq).1, UInt64.le_trans (h.openAfter hacq).2 hclock⟩
  · rw [hstats]
    exact h.min
  · rw [hstats]
    exact h.max
  · rw [hstats]
    exact h.last
  · rw [hstats]
    exact h.none

theorem Consistent.acquire {g : Globals} {pairs : List (UInt64 × UInt64)}
    (h : Consistent g pairs) (status : BtStatus) {nowMs : UInt64} (hclock : g.clock ≤ nowMs) :
    Consistent (updateAcquiredStats g status nowMs) pairs := by
  have hle : g.clock.toNat ≤ nowMs.toNat := UInt64.le_iff_toNat_le.mp hclock
  unfold updateAcquiredStats
  dsimp only
  by_cases hacq : g.stats.isAcquired = true
  · rw [if_pos hacq]
    exact h.congr rfl hclock ⟨_, g.stats.releasedErrors, rfl⟩
  · rw [if_neg hacq]
    have hcount := h.acquiredCount
    have hevents := h.events
    rw [Bool.eq_false_of_not_eq_true hacq] at hcount
    rw [openEvents, if_neg hacq, List.append_nil] at hevents
    refine ⟨?_, ?_, h.releasedCount, h.total, ?_, h.before.trans hle, h.min, h.max, h.last,
      h.none⟩
    · rw [hevents]
      rfl
    · rw [hcount]
      rfl
    · intro _
      exact ⟨h.before.trans hle, UInt64.le_refl nowMs⟩

theorem Consistent.closeInterval {g : Globals} {pairs : List (UInt64 × UInt64)}
    (h : Consistent g pairs) (hacq : g.stats.isAcquired = true) {nowMs : UInt64}
    (hclock : g.clock ≤ nowMs) :
    Consistent
      { g with
        stats := Wakelock.closeInterval g.stats nowMs
        events := g.events ++ [releasedEvent nowMs]
        clock := nowMs }
      (pairs ++ [(g.stats.lastAcquiredTimestampMs, nowMs)]) := by
  obtain ⟨hsum, hstart⟩ := h.openAfter hacq
  have hnow : g.stats.lastAcquiredTimestampMs ≤ nowMs := UInt64.le_trans hstart hclock
  have hnow' : g.stats.lastAcquiredTimestampMs.toNat ≤ nowMs.toNat :=
    UInt64.le_iff_toNat_le.mp hnow
  have hdelta : (nowMs - g.stats.lastAcquiredTimestampMs).toNat =
      nowMs.toNat - g.stats.lastAcquiredTimestampMs.toNat := UInt64.toNat_sub_of_le _ _ hnow
  have hlengths : lengths (pairs ++ [(g.stats.lastAcquiredTimestampMs, nowMs)]) =
      lengths pairs ++ [(nowMs - g.stats.lastAcquiredTimestampMs).toNat] := by
    simp [lengths, hdelta]
  have hbound := nowMs.toNat_lt
  have htotal : (g.stats.totalAcquiredIntervalMs +
      (nowMs - g.stats.lastAcquiredTimestampMs)).toNat =
      (lengths pairs).sum + (nowMs - g.stats.lastAcquiredTimestampMs).toNat := by
    rw [UInt64.toNat_add, h.total, Nat.mod_eq_of_lt]
    omega
  have hreleased := h.releasedCount
  refine ⟨?_, ?_, ?_, ?_, ?_, ?_, ?_, ?_, ?_, ?_⟩
  · simp only [h.events, openEvents, hacq, if_true, pairEvents_concat, List.append_assoc,
      Wakelock.closeInterval, Bool.false_eq_true, if_false, List.append_nil]
    rfl
  · simp only [Wakelock.closeInterval, h.acquiredCount, hacq, Bool.toNat_true,
      List.length_append, List.length_singleton, Bool.toNat_false, Nat.add_zero]
  · simp only [Wakelock.closeInterval, h.releasedCount, List.length_append,
      List.length_singleton]
  · simp only [Wakelock.closeInterval, htotal, hlengths, List.sum_append, List.sum_singleton]
  · intro hclosed
    cases hclosed
  · rw [hlengths, List.sum_append, List.sum_singleton]
    change _ ≤ nowMs.toNat
    omega
  · intro _
    rw [hlengths]
    by_cases hpairs : pairs = []
    · subst hpairs
      have hone : g.stats.releasedCount + 1 = 1 := by rw [hreleased]; rfl
      simp only [Wakelock.closeInterval, hone, or_true, if_true]
      exact isMin_singleton _
    · have hmin := (h.min hpairs).concat (m := (nowMs - g.stats.lastAcquiredTimestampMs).toNat)
      have hmany : g.stats.releasedCount + 1 ≠ 1 := by
        rw [hreleased]
        have := List.length_pos_iff.mpr hpairs
        omega
      simp only [Wakelock.closeInterval, hmany, or_false]
      rw [toNat_ite_min]
      exact hmin
  · intro _
    rw [hlengths]
    simp only [Wakelock.closeInterval]
    rw [toNat_ite_max]
    by_cases hpairs : pairs = []
    · subst hpairs
      rw [(h.none rfl).2]
      simpa [lengths] using isMax_singleton _
    · exact (h.max hpairs).concat
  · intro _
    rw [hlengths, List.getLast?_concat]
    rfl
  · intro hnil
    exact absurd hnil (by simp)

theorem Consistent.release {g : Globals} {pairs : List (UInt64 × UInt64)}
    (h : Consistent g pairs) (status : BtStatus) {nowMs : UInt64} (hclock : g.clock ≤ nowMs) :
    ∃ pairs', Consistent (updateReleasedStats g status nowMs) pairs' := by
  unfold updateReleasedStats
  dsimp only
  by_cases hacq : g.stats.isAcquired = true
  · rw [if_pos hacq]
    -- the counter of the errors is written before the interval is closed
    have hcounted : Consistent
        { g with
          stats := { g.stats with
            releasedErrors := countError g.stats.releasedErrors status } } pairs :=
      h.congr rfl (UInt64.le_refl g.clock) ⟨g.stats.acquiredErrors, _, rfl⟩
    exact ⟨_, hcounted.closeInterval hacq hclock⟩
  · rw [if_neg hacq]
    exact ⟨pairs, h.congr rfl hclock ⟨g.stats.acquiredErrors, _, rfl⟩⟩

theorem Consistent.step {g g' : Globals} {pairs : List (UInt64 × UInt64)} {l : Label}
    (h : Consistent g pairs) (hstep : Wakelock.step g l = .ok g') :
    ∃ pairs', Consistent g' pairs' := by
  cases l with
  | acquire env =>
      simp only [Wakelock.step] at hstep
      split_ifs at hstep with hclock
      cases hstep
      by_cases hnative : g.isNative = true
      · have hlen : Consistent (acquireNative g env).1 pairs := by
          unfold acquireNative
          by_cases hlock : g.wakeLockFd = false
          · rw [if_pos hlock]
            exact h
          by_cases hunlock : g.wakeUnlockFd = false
          · rw [if_neg hlock, if_pos hunlock]
            exact h
          · rw [if_neg hlock, if_neg hunlock]
            exact h.congr rfl (UInt64.le_refl g.clock) ⟨_, _, rfl⟩
        have hclock' : (acquireNative g env).1.clock ≤ env.nowMs := by
          unfold acquireNative
          split_ifs <;> exact hclock
        simp only [wakelockAcquire, if_pos hnative]
        exact ⟨pairs, hlen.acquire _ hclock'⟩
      · simp only [wakelockAcquire, if_neg hnative]
        exact ⟨pairs, h.acquire _ hclock⟩
  | release env =>
      simp only [Wakelock.step] at hstep
      split_ifs at hstep with hclock
      cases hstep
      exact h.release _ hclock

theorem consistent_of_reachable {g₀ g : Globals} {t₀ : UInt64}
    (h : Reachable (Next step) (reset g₀ t₀) g) : ∃ pairs, Consistent g pairs := by
  refine h.invariant (I := fun g => ∃ pairs, Consistent g pairs) ?_
    ⟨[], consistent_reset g₀ t₀⟩
  rintro g l g' ⟨pairs, hg⟩ hstep
  exact hg.step hstep

/-! ## The counters -/

/-- No counter exceeds the bound. -/
structure Stats.CountersLe (stats : Stats) (n : ℕ) : Prop where
  acquiredCount : stats.acquiredCount ≤ n
  releasedCount : stats.releasedCount ≤ n
  acquiredErrors : stats.acquiredErrors ≤ n
  releasedErrors : stats.releasedErrors ≤ n

theorem countError_le {errors n : ℕ} (h : errors ≤ n) (status : BtStatus) :
    countError errors status ≤ n + 1 := by
  unfold countError
  split_ifs <;> omega

theorem Stats.CountersLe.acquire {g : Globals} {n : ℕ} (h : g.stats.CountersLe n)
    (status : BtStatus) (nowMs : UInt64) :
    (updateAcquiredStats g status nowMs).stats.CountersLe (n + 1) := by
  have herrors := countError_le h.acquiredErrors status
  unfold updateAcquiredStats
  dsimp only
  split_ifs
  · exact ⟨h.1.trans n.le_succ, h.2.trans n.le_succ, herrors, h.4.trans n.le_succ⟩
  · exact ⟨Nat.succ_le_succ h.1, h.2.trans n.le_succ, herrors, h.4.trans n.le_succ⟩

theorem Stats.CountersLe.release {g : Globals} {n : ℕ} (h : g.stats.CountersLe n)
    (status : BtStatus) (nowMs : UInt64) :
    (updateReleasedStats g status nowMs).stats.CountersLe (n + 1) := by
  have herrors := countError_le h.releasedErrors status
  unfold updateReleasedStats
  dsimp only
  split_ifs
  · exact ⟨h.1.trans n.le_succ, Nat.succ_le_succ h.2, h.3.trans n.le_succ, herrors⟩
  · exact ⟨h.1.trans n.le_succ, h.2.trans n.le_succ, h.3.trans n.le_succ, herrors⟩

theorem Stats.CountersLe.step {g g' : Globals} {n : ℕ} {l : Label} (h : g.stats.CountersLe n)
    (hstep : Wakelock.step g l = .ok g') : g'.stats.CountersLe (n + 1) := by
  cases l with
  | acquire env =>
      simp only [Wakelock.step] at hstep
      split_ifs at hstep
      cases hstep
      unfold wakelockAcquire
      dsimp only
      refine Stats.CountersLe.acquire ?_ _ _
      unfold acquireNative
      split_ifs <;> exact h
  | release env =>
      simp only [Wakelock.step] at hstep
      split_ifs at hstep
      cases hstep
      exact h.release _ _

theorem countersLe_length {g₀ g : Globals} {t₀ : UInt64} {calls : List Label}
    (h : Run (Next step) (reset g₀ t₀) calls g) : g.stats.CountersLe calls.length := by
  generalize hstart : reset g₀ t₀ = start at h
  induction h with
  | nil =>
      rw [← hstart]
      exact ⟨Nat.zero_le _, Nat.zero_le _, Nat.zero_le _, Nat.zero_le _⟩
  | snoc _ hlast ih =>
      rw [List.length_append]
      exact ih.step hlast

theorem counters_fit {g₀ g : Globals} {t₀ : UInt64} {calls : List Label}
    (h : Run (Next step) (reset g₀ t₀) calls g) (hcalls : calls.length < UInt64.size) :
    g.stats.acquiredCount < UInt64.size ∧ g.stats.releasedCount < UInt64.size ∧
      g.stats.acquiredErrors < UInt64.size ∧ g.stats.releasedErrors < UInt64.size := by
  have hle := countersLe_length h
  exact ⟨hle.1.trans_lt hcalls, hle.2.trans_lt hcalls, hle.3.trans_lt hcalls,
    hle.4.trans_lt hcalls⟩

/-! ## The dump -/

theorem average_between {x least greatest : UInt64} {all : List ℕ} {n : ℕ}
    (hn : n = all.length) (hsum : x.toNat = all.sum)
    (hleast : ∀ m ∈ all, least.toNat ≤ m) (hgreatest : ∀ m ∈ all, m ≤ greatest.toNat)
    (hnone : all = [] → least = 0) :
    ∃ ave, (if 0 < n then divide x n else some 0) = some ave ∧ least ≤ ave ∧
      ave ≤ greatest := by
  by_cases hall : all = []
  · refine ⟨0, ?_, ?_, UInt64.zero_le⟩
    · rw [if_neg (by simp [hn, hall])]
    · rw [hnone hall]
      exact UInt64.le_refl 0
  · have hpos : 0 < n := by
      rw [hn]
      exact List.length_pos_iff.mpr hall
    have hfits : x.toNat / n < 2 ^ 64 := (Nat.div_le_self x.toNat n).trans_lt x.toNat_lt
    refine ⟨UInt64.ofNat (x.toNat / n), ?_, ?_, ?_⟩
    · rw [if_pos hpos, divide, if_neg (by omega)]
    · rw [UInt64.le_iff_toNat_le, UInt64.toNat_ofNat_of_lt' hfits, hsum, hn]
      exact le_average hall hleast
    · rw [UInt64.le_iff_toNat_le, UInt64.toNat_ofNat_of_lt' hfits, hsum, hn]
      exact average_le hall hgreatest

/-- At any later time the dump divides by a positive count only, and its average
lies between its minimum and its maximum. -/
theorem Consistent.dump {g : Globals} {pairs : List (UInt64 × UInt64)} (h : Consistent g pairs)
    {nowMs : UInt64} (hclock : g.clock ≤ nowMs) :
    ∃ d, debugDump g.stats nowMs = some d ∧ d.minInterval ≤ d.aveInterval ∧
      d.aveInterval ≤ d.maxInterval := by
  have hnil : lengths pairs = [] → pairs = [] := fun hl => List.map_eq_nil_iff.mp hl
  by_cases hacq : g.stats.isAcquired = true
  · -- the open interval counts like a closed one that ends now
    obtain ⟨hsum, hstart⟩ := h.openAfter hacq
    have hnow : g.stats.lastAcquiredTimestampMs ≤ nowMs := UInt64.le_trans hstart hclock
    have hnow' : g.stats.lastAcquiredTimestampMs.toNat ≤ nowMs.toNat :=
      UInt64.le_iff_toNat_le.mp hnow
    have hdelta : (nowMs - g.stats.lastAcquiredTimestampMs).toNat =
        nowMs.toNat - g.stats.lastAcquiredTimestampMs.toNat := UInt64.toNat_sub_of_le _ _ hnow
    generalize hd : nowMs - g.stats.lastAcquiredTimestampMs = delta at hdelta
    have hbound := nowMs.toNat_lt
    have hcount : g.stats.acquiredCount = (lengths pairs ++ [delta.toNat]).length := by
      rw [h.acquiredCount, hacq]
      simp [lengths]
    have htotal : (g.stats.totalAcquiredIntervalMs + delta).toNat =
        (lengths pairs ++ [delta.toNat]).sum := by
      rw [UInt64.toNat_add, h.total, List.sum_append, List.sum_singleton, Nat.mod_eq_of_lt]
      omega
    have hleast : ∀ m ∈ lengths pairs ++ [delta.toNat],
        (if delta < g.stats.minAcquiredIntervalMs then delta
          else g.stats.minAcquiredIntervalMs).toNat ≤ m := by
      rw [toNat_ite_min]
      by_cases hpairs : pairs = []
      · rw [(h.none hpairs).1]
        simp
      · exact (h.min hpairs).concat.2
    have hgreatest : ∀ m ∈ lengths pairs ++ [delta.toNat],
        m ≤ (if g.stats.maxAcquiredIntervalMs < delta then delta
          else g.stats.maxAcquiredIntervalMs).toNat := by
      rw [toNat_ite_max]
      by_cases hpairs : pairs = []
      · simp [lengths, hpairs]
      · exact (h.max hpairs).concat.2
    obtain ⟨ave, hdivide, hle, hge⟩ :=
      average_between hcount htotal hleast hgreatest (fun hempty => absurd hempty (by simp))
    unfold debugDump
    simp only [hacq, if_true, true_and, hd, hdivide, Option.map_some]
    exact ⟨_, rfl, hle, hge⟩
  · have hcount : g.stats.acquiredCount = (lengths pairs).length := by
      rw [h.acquiredCount, Bool.eq_false_of_not_eq_true hacq]
      simp [lengths]
    have htotal : (g.stats.totalAcquiredIntervalMs + 0).toNat = (lengths pairs).sum := by
      rw [UInt64.add_zero, h.total]
    have hleast : ∀ m ∈ lengths pairs, g.stats.minAcquiredIntervalMs.toNat ≤ m := by
      by_cases hpairs : pairs = []
      · simp [lengths, hpairs]
      · exact (h.min hpairs).2
    have hgreatest : ∀ m ∈ lengths pairs, m ≤ g.stats.maxAcquiredIntervalMs.toNat := by
      by_cases hpairs : pairs = []
      · simp [lengths, hpairs]
      · exact (h.max hpairs).2
    obtain ⟨ave, hdivide, hle, hge⟩ := average_between hcount htotal hleast hgreatest
      fun hempty => (h.none (hnil hempty)).1
    unfold debugDump
    simp only [hacq, Bool.false_eq_true, if_false, false_and, hdivide, Option.map_some]
    exact ⟨_, rfl, hle, hge⟩

/-- In every state that calls of `wakelock_acquire` and `wakelock_release` reach
after `reset_wakelock_stats`, with any statuses and a clock that does not go
back: the two counters differ by the open interval, the events alternate and
close as many intervals as releases are counted, the total is their sum, the
extrema and the last one are theirs, and at any later time the dump divides by no
zero and shows an average between its minimum and its maximum. -/
theorem wakelock_statistics (g₀ : Globals) (t₀ : UInt64) (g : Globals)
    (h : Reachable (Next step) (reset g₀ t₀) g) :
    g.stats.acquiredCount = g.stats.releasedCount + (if g.stats.isAcquired then 1 else 0) ∧
    Alternate .acquired g.events ∧
    g.events.length = g.stats.acquiredCount + g.stats.releasedCount ∧
    (closedIntervals g.events).length = g.stats.releasedCount ∧
    g.stats.totalAcquiredIntervalMs.toNat = (closedIntervals g.events).sum ∧
    (closedIntervals g.events ≠ [] →
      IsMin g.stats.minAcquiredIntervalMs.toNat (closedIntervals g.events) ∧
      IsMax g.stats.maxAcquiredIntervalMs.toNat (closedIntervals g.events) ∧
      (closedIntervals g.events).getLast? = some g.stats.lastAcquiredIntervalMs.toNat) ∧
    ∀ nowMs, g.clock ≤ nowMs → ∃ d, debugDump g.stats nowMs = some d ∧
      d.minInterval ≤ d.aveInterval ∧ d.aveInterval ≤ d.maxInterval := by
  obtain ⟨pairs, hinv⟩ := consistent_of_reachable h
  have hclosed : closedIntervals g.events = lengths pairs := by
    rw [hinv.events, closedIntervals_append, closedIntervals_openEvents, List.append_nil]
  have hlength : g.events.length = 2 * pairs.length + g.stats.isAcquired.toNat := by
    rw [hinv.events, List.length_append]
    have hpairs : (pairEvents pairs).length = 2 * pairs.length := by
      simp [pairEvents, Nat.mul_comm]
    rw [hpairs]
    unfold openEvents
    cases g.stats.isAcquired <;> rfl
  rw [hclosed]
  refine ⟨?_, ?_, ?_, ?_, hinv.total, ?_, fun nowMs hclock => hinv.dump hclock⟩
  · rw [hinv.acquiredCount, hinv.releasedCount]
    cases g.stats.isAcquired <;> rfl
  · rw [hinv.events]
    exact alternate_append pairs (alternate_openEvents g.stats)
  · rw [hlength, hinv.acquiredCount, hinv.releasedCount]
    omega
  · rw [hinv.releasedCount]
    exact List.length_map _
  · intro hne
    have hpairs : pairs ≠ [] := fun hnil => hne (by simp [lengths, hnil])
    exact ⟨hinv.min hpairs, hinv.max hpairs, hinv.last hpairs⟩

/-- Two intervals of 3 and 7 milliseconds and an open one, with repeated calls
and a failed status in between. -/
def twoIntervals : List Label :=
  [.release ⟨10, .success, 0⟩, .acquire ⟨12, .success, 15⟩, .acquire ⟨13, .fail, 15⟩,
    .release ⟨15, .success, 15⟩, .release ⟨16, .success, 15⟩, .acquire ⟨20, .success, 15⟩,
    .release ⟨27, .fail, 15⟩, .acquire ⟨30, .success, 15⟩]

/-- The module before its first reset, with callouts. -/
def uninitialized : Globals where
  isNative := false
  wakeLockFd := false
  wakeUnlockFd := false
  lockedIdLen := -1
  stats := resetStats 0
  events := []
  clock := 0

theorem wakelock_statistics_twoIntervals :
    ∃ g : Globals, closedIntervals g.events = [3, 7] ∧ g.stats.totalAcquiredIntervalMs = 10 ∧
      IsMin g.stats.minAcquiredIntervalMs.toNat [3, 7] ∧
      ∃ d, debugDump g.stats 45 = some d ∧ d.minInterval ≤ d.aveInterval ∧
        d.aveInterval ≤ d.maxInterval := by
  have hend : ((exec (fun _ _ => true) step (reset uninitialized 5) twoIntervals).any fun g =>
      decide (closedIntervals g.events = [3, 7] ∧ g.stats.totalAcquiredIntervalMs = 10 ∧
        g.clock = 30)) = true := by
    decide
  obtain ⟨g, hg, hend⟩ := (Option.any_eq_true _ _).mp hend
  obtain ⟨hclosed, htotal, hclock⟩ := of_decide_eq_true hend
  obtain ⟨-, -, -, -, -, hextrema, hdump⟩ :=
    wakelock_statistics uninitialized 5 g (Reachable.of_exec_true hg)
  have hmin := (hextrema (by simp [hclosed])).1
  rw [hclosed] at hmin
  exact ⟨g, hclosed, htotal, hmin, hdump 45 (by rw [hclock]; decide)⟩

end Wakelock

end Osi
