import Osi.Transition.Run
import Mathlib.Data.UInt

/-!
# The wakelock and its statistics

`wakelock.c` acquires and releases one wake lock, either through the files of the
kernel or through the callouts of the system, and keeps statistics of it. The
statistics are updated after every call whatever its status, and an acquire of
the acquired lock or a release of the released one is not counted.

Times are `uint64_t` milliseconds. What the environment decides is an argument of
a call: the status of the callout, the result of `write`, and the time. The
counters are `size_t` in the source and natural numbers here; none of them exceeds the
number of calls (`counters_fit`), so in every run of fewer than `2 ^ 64` calls both count
the same. A division is checked, so that a division by zero would show.
-/

namespace Osi

namespace Wakelock

inductive BtStatus
  | success
  | fail
  | parmInvalid
  | other (code : ℕ)
  deriving DecidableEq, Repr

inductive WakeEventType
  | acquired
  | released
  deriving DecidableEq, Repr

/-- A call of `metrics_wake_event`; the requestor is always `NULL`. -/
structure WakeEvent where
  type : WakeEventType
  name : String
  timestampMs : UInt64
  deriving DecidableEq, Repr

structure Stats where
  isAcquired : Bool
  acquiredCount : ℕ
  releasedCount : ℕ
  acquiredErrors : ℕ
  releasedErrors : ℕ
  minAcquiredIntervalMs : UInt64
  maxAcquiredIntervalMs : UInt64
  lastAcquiredIntervalMs : UInt64
  totalAcquiredIntervalMs : UInt64
  lastAcquiredTimestampMs : UInt64
  lastReleasedTimestampMs : UInt64
  lastResetTimestampMs : UInt64
  deriving DecidableEq, Repr

def wakeLockId : String := "bluetooth_timer"

/-- The static variables of the module; a file descriptor is only valid or not.
`events` are the calls of `metrics_wake_event`, `clock` is the last time read. -/
structure Globals where
  isNative : Bool
  wakeLockFd : Bool
  wakeUnlockFd : Bool
  lockedIdLen : ℤ
  stats : Stats
  events : List WakeEvent
  clock : UInt64
  deriving DecidableEq, Repr

structure Env where
  nowMs : UInt64
  callout : BtStatus
  written : ℤ
  deriving DecidableEq, Repr

def resetStats (nowMs : UInt64) : Stats where
  isAcquired := false
  acquiredCount := 0
  releasedCount := 0
  acquiredErrors := 0
  releasedErrors := 0
  minAcquiredIntervalMs := 0
  maxAcquiredIntervalMs := 0
  lastAcquiredIntervalMs := 0
  totalAcquiredIntervalMs := 0
  lastAcquiredTimestampMs := 0
  lastReleasedTimestampMs := 0
  lastResetTimestampMs := nowMs

/-- The module after `reset_wakelock_stats`; the events are those since. -/
def reset (g : Globals) (nowMs : UInt64) : Globals :=
  { g with stats := resetStats nowMs, events := [], clock := nowMs }

def countError (errors : ℕ) (status : BtStatus) : ℕ :=
  if status = .success then errors else errors + 1

def updateAcquiredStats (g : Globals) (status : BtStatus) (nowMs : UInt64) : Globals :=
  let stats := { g.stats with acquiredErrors := countError g.stats.acquiredErrors status }
  if stats.isAcquired then { g with stats := stats, clock := nowMs }
  else
    { g with
      stats := { stats with
        isAcquired := true
        acquiredCount := stats.acquiredCount + 1
        lastAcquiredTimestampMs := nowMs }
      events := g.events ++ [{ type := .acquired, name := wakeLockId, timestampMs := nowMs }]
      clock := nowMs }

def closeInterval (stats : Stats) (nowMs : UInt64) : Stats :=
  let releasedCount := stats.releasedCount + 1
  let deltaMs := nowMs - stats.lastAcquiredTimestampMs
  { stats with
    isAcquired := false
    releasedCount := releasedCount
    lastReleasedTimestampMs := nowMs
    minAcquiredIntervalMs :=
      if deltaMs < stats.minAcquiredIntervalMs ∨ releasedCount = 1 then deltaMs
      else stats.minAcquiredIntervalMs
    maxAcquiredIntervalMs :=
      if stats.maxAcquiredIntervalMs < deltaMs then deltaMs else stats.maxAcquiredIntervalMs
    lastAcquiredIntervalMs := deltaMs
    totalAcquiredIntervalMs := stats.totalAcquiredIntervalMs + deltaMs }

def updateReleasedStats (g : Globals) (status : BtStatus) (nowMs : UInt64) : Globals :=
  let stats := { g.stats with releasedErrors := countError g.stats.releasedErrors status }
  if stats.isAcquired then
    { g with
      stats := closeInterval stats nowMs
      events := g.events ++ [{ type := .released, name := wakeLockId, timestampMs := nowMs }]
      clock := nowMs }
  else { g with stats := stats, clock := nowMs }

def acquireNative (g : Globals) (env : Env) : Globals × BtStatus :=
  if g.wakeLockFd = false then (g, .parmInvalid)
  else if g.wakeUnlockFd = false then (g, .parmInvalid)
  else ({ g with lockedIdLen := env.written }, if env.written = -1 then .fail else .success)

/-- `wakelock_release_native`: a release that could not be written counts as one. -/
def releaseNative (g : Globals) : BtStatus :=
  if g.wakeUnlockFd = false then .parmInvalid else .success

def wakelockAcquire (g : Globals) (env : Env) : Globals × Bool :=
  let (g', status) := if g.isNative then acquireNative g env else (g, env.callout)
  (updateAcquiredStats g' status env.nowMs, status = .success)

def wakelockRelease (g : Globals) (env : Env) : Globals × Bool :=
  let status := if g.isNative then releaseNative g else env.callout
  (updateReleasedStats g status env.nowMs, status = .success)

structure Dump where
  isAcquired : Bool
  acquiredCount : ℕ
  releasedCount : ℕ
  acquiredErrors : ℕ
  releasedErrors : ℕ
  lastInterval : UInt64
  minInterval : UInt64
  maxInterval : UInt64
  aveInterval : UInt64
  totalInterval : UInt64
  totalRunTime : UInt64
  deriving DecidableEq, Repr

/-- The quotient of a time and a counter; `none` is a division by zero. -/
def divide (x : UInt64) (n : ℕ) : Option UInt64 :=
  if n = 0 then none else some (UInt64.ofNat (x.toNat / n))

def debugDump (stats : Stats) (nowMs : UInt64) : Option Dump :=
  let deltaMs := if stats.isAcquired then nowMs - stats.lastAcquiredTimestampMs else 0
  let maxInterval :=
    if stats.isAcquired ∧ stats.maxAcquiredIntervalMs < deltaMs then deltaMs
    else stats.maxAcquiredIntervalMs
  let minInterval :=
    if stats.isAcquired ∧ deltaMs < stats.minAcquiredIntervalMs then deltaMs
    else stats.minAcquiredIntervalMs
  let lastInterval := if stats.isAcquired then deltaMs else stats.lastAcquiredIntervalMs
  let totalInterval := stats.totalAcquiredIntervalMs + deltaMs
  let aveInterval :=
    if 0 < stats.acquiredCount then divide totalInterval stats.acquiredCount else some 0
  aveInterval.map fun aveInterval =>
    { isAcquired := stats.isAcquired
      acquiredCount := stats.acquiredCount
      releasedCount := stats.releasedCount
      acquiredErrors := stats.acquiredErrors
      releasedErrors := stats.releasedErrors
      lastInterval := lastInterval
      minInterval := minInterval
      maxInterval := maxInterval
      aveInterval := aveInterval
      totalInterval := totalInterval
      totalRunTime := nowMs - stats.lastResetTimestampMs }

inductive Label
  | acquire (env : Env)
  | release (env : Env)
  deriving DecidableEq, Repr

inductive Fault
  | clock
  deriving DecidableEq, Repr

/-- One call, at a time that is not before the time of the last one. -/
def step (g : Globals) : Label → Except Fault Globals
  | .acquire env =>
      if g.clock ≤ env.nowMs then .ok (wakelockAcquire g env).1 else .error .clock
  | .release env =>
      if g.clock ≤ env.nowMs then .ok (wakelockRelease g env).1 else .error .clock

end Wakelock

end Osi
