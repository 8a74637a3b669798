import Osi.Transition.Run
import Osi.Transition.Threads
import Mathlib.Data.UInt

/-!
# The metrics

`metrics.cpp` keeps one pending log. The four functions that record an event hold
`log_lock` by a scope guard; `metrics_write` and `metrics_print` lock and unlock it
by hand, make a text of the log, clear it if they are asked to, and write the text
after the lock is released. An error in `SerializeToString` returns at once.

Any number of threads make these calls, and their steps interleave. The serialization
of protobuf and Base64 are not modelled: a text is what it contains, and the step
that makes it succeeds or fails as its label says. An event carries the number of
events that were recorded before it, so that equal events can be told apart.
`logged` and `written` record what was done; no step looks at them.
-/

namespace Osi

namespace Metrics

open Transition

/-! ## The messages -/

/-- `device_type_t`, and `DeviceInfo::DeviceType` without `other`. -/
inductive DeviceType
  | unknown
  | bredr
  | le
  | dumo
  | other (code : ℕ)
  deriving DecidableEq, Repr

def DeviceType.info : DeviceType → DeviceType
  | .bredr => .bredr
  | .le => .le
  | .dumo => .dumo
  | _ => .unknown

structure DeviceInfo where
  deviceClass : Int32
  deviceType : DeviceType
  deriving DecidableEq, Repr

structure PairEvent where
  devicePairedWith : DeviceInfo
  disconnectReason : Int32
  eventTimeMillis : Int64
  deriving DecidableEq, Repr

/-- `wake_event_type_t`, and `WakeEvent::WakeEventType` without `other`. -/
inductive WakeEventType
  | unknown
  | acquired
  | released
  | other (code : ℕ)
  deriving DecidableEq, Repr

def WakeEventType.info : WakeEventType → WakeEventType
  | .acquired => .acquired
  | .released => .released
  | _ => .unknown

structure WakeEvent where
  wakeEventType : WakeEventType
  requestor : Option String
  name : Option String
  eventTimeMillis : Int64
  deriving DecidableEq, Repr

inductive ScanEventType
  | start
  | stop
  deriving DecidableEq, Repr

/-- `scan_tech_t`, and `ScanEvent::ScanTechnologyType` without `other`. -/
inductive ScanTechnologyType
  | unknown
  | le
  | bredr
  | both
  | other (code : ℕ)
  deriving DecidableEq, Repr

def ScanTechnologyType.info : ScanTechnologyType → ScanTechnologyType
  | .le => .le
  | .bredr => .bredr
  | .both => .both
  | _ => .unknown

structure ScanEvent where
  scanEventType : ScanEventType
  initiator : Option String
  scanTechnologyType : ScanTechnologyType
  numberResults : Int32
  eventTimeMillis : Int64
  deriving DecidableEq, Repr

/-- `A2DPSession`; the average is a `float`, given by its bits. -/
structure A2DPSession where
  mediaTimerMinMillis : Int32
  mediaTimerMaxMillis : Int32
  mediaTimerAvgMillis : Int32
  bufferOverrunsMaxCount : Int32
  bufferOverrunsTotal : Int32
  bufferUnderrunsAverage : UInt32
  bufferUnderrunsCount : Int32
  deriving DecidableEq, Repr

/-- `BluetoothSession`; its connection type is always BR/EDR. -/
structure BluetoothSession where
  sessionDurationSec : Int64
  disconnectReason : Option String
  deviceConnectedTo : DeviceInfo
  a2dpSession : A2DPSession
  deriving DecidableEq, Repr

inductive Event
  | session (e : BluetoothSession)
  | pair (e : PairEvent)
  | wake (e : WakeEvent)
  | scan (e : ScanEvent)
  deriving DecidableEq, Repr

structure Entry where
  serial : ℕ
  event : Event
  deriving DecidableEq, Repr

/-- `BluetoothLog`: its repeated fields together, in the order of the additions. -/
abbrev BluetoothLog := List Entry

/-! ## The calls -/

inductive Writer
  | write
  | print
  deriving DecidableEq, Repr

inductive Record
  | pairEvent (disconnectReason : UInt32) (timestampMs : UInt64) (deviceClass : UInt32)
      (deviceType : DeviceType)
  | wakeEvent (type : WakeEventType) (requestor name : Option String) (timestampMs : UInt64)
  | scanEvent (start : Bool) (initiator : Option String) (type : ScanTechnologyType)
      (results : UInt32) (timestampMs : UInt64)
  | a2dpSession (sessionDurationSec : Int64) (disconnectReason : Option String)
      (deviceClass : UInt32) (session : A2DPSession)
  deriving DecidableEq, Repr

/-- A call; the descriptor that is written to is not seen by the log. -/
inductive Call
  | record (record : Record)
  | output (writer : Writer) (clear : Bool)
  deriving DecidableEq, Repr

def Record.event : Record → Event
  | .pairEvent disconnectReason timestampMs deviceClass deviceType =>
      .pair
        { devicePairedWith :=
            { deviceClass := deviceClass.toInt32, deviceType := deviceType.info }
          disconnectReason := disconnectReason.toInt32
          eventTimeMillis := timestampMs.toInt64 }
  | .wakeEvent type requestor name timestampMs =>
      .wake
        { wakeEventType := type.info
          requestor := requestor
          name := name
          eventTimeMillis := timestampMs.toInt64 }
  | .scanEvent start initiator type results timestampMs =>
      .scan
        { scanEventType := if start then .start else .stop
          initiator := initiator
          scanTechnologyType := type.info
          numberResults := results.toInt32
          eventTimeMillis := timestampMs.toInt64 }
  | .a2dpSession sessionDurationSec disconnectReason deviceClass session =>
      .session
        { sessionDurationSec := sessionDurationSec
          disconnectReason := disconnectReason
          deviceConnectedTo := { deviceClass := deviceClass.toInt32, deviceType := .bredr }
          a2dpSession := session }

/-- A text of the log that is to be written: the events that it contains, and if the log
is cleared after it was made. -/
structure Output where
  contents : List Entry
  clear : Bool
  deriving DecidableEq, Repr

/-- Where a thread is. From `adding` to `unlockGuard` and from `serializing` to
`unlocking` it has `log_lock`. -/
inductive Pc
  | idle
  | locking (call : Call)
  | adding (event : Event)
  | unlockGuard
  | serializing (writer : Writer) (clear : Bool)
  | clearing (writer : Writer) (output : Output)
  | unlocking (writer : Writer) (output : Output)
  | encoding (output : Output)
  | writing (output : Output)
  deriving DecidableEq, Repr

def Pc.holds : Pc → Bool
  | .adding _ => true
  | .unlockGuard => true
  | .serializing _ _ => true
  | .clearing _ _ => true
  | .unlocking _ _ => true
  | _ => false

/-- The static variables, the threads, the events that were recorded and the texts that
were written. -/
structure State (T : Type*) where
  pending : Option BluetoothLog
  logLock : Option T
  pc : T → Pc
  logged : List Entry
  written : List (List Entry)

/-- A thread calls a function, or goes on; `ok` is the outcome of a step that may fail. -/
inductive Label (T : Type*)
  | call (t : T) (call : Call)
  | run (t : T) (ok : Bool)
  deriving DecidableEq, Repr

/-- Why a step is not taken. -/
inductive Fault
  | busy
  | idle
  | locked
  deriving DecidableEq, Repr

variable {T : Type*} [DecidableEq T]

def init : State T where
  pending := none
  logLock := none
  pc := fun _ => .idle
  logged := []
  written := []

namespace State

def goto (s : State T) (t : T) (pc : Pc) : State T :=
  { s with pc := Function.update s.pc t pc }

def log (s : State T) : BluetoothLog := s.pending.getD []

def advance (s : State T) (t : T) (ok : Bool) : Except Fault (State T) :=
  match s.pc t with
  | .idle => .error .idle
  | .locking call =>
      if s.logLock = none then
        let s := { s with logLock := some t, pending := some s.log }
        match call with
        | .record record => .ok (s.goto t (.adding record.event))
        | .output writer clear => .ok (s.goto t (.serializing writer clear))
      else .error .locked
  | .adding event =>
      let entry : Entry := { serial := s.logged.length, event := event }
      .ok ({ s with
        pending := some (s.log ++ [entry])
        logged := s.logged ++ [entry] }.goto t .unlockGuard)
  | .unlockGuard => .ok ({ s with logLock := none }.goto t .idle)
  | .serializing writer clear =>
      match ok, writer with
      | true, writer =>
          .ok (s.goto t (.clearing writer { contents := s.log, clear := clear }))
      -- the early return of `metrics_write`
      | false, .write => .ok (s.goto t .idle)
      -- `metrics_print` does not look at the result of `PrintToString`
      | false, .print =>
          .ok (s.goto t (.clearing .print { contents := [], clear := clear }))
  | .clearing writer output =>
      .ok ({ s with pending := if output.clear then some [] else s.pending }.goto t
        (.unlocking writer output))
  | .unlocking writer output =>
      .ok ({ s with logLock := none }.goto t (match writer with
        | .write => .encoding output
        | .print => .writing output))
  | .encoding output =>
      .ok (s.goto t (.writing
        { output with contents := if ok then output.contents else [] }))
  | .writing output =>
      .ok ({ s with
        written := if ok then s.written ++ [output.contents] else s.written }.goto t .idle)

def step (s : State T) : Label T → Except Fault (State T)
  | .call t call =>
      if s.pc t = .idle then .ok (s.goto t (.locking call)) else .error .busy
  | .run t ok => s.advance t ok

/-- No call is in progress. -/
def Quiet (s : State T) : Prop := ∀ t, s.pc t = .idle

end State

end Metrics

end Osi
