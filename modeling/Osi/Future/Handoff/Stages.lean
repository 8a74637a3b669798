import Osi.Future.Basic

/-!
# The hand-over of a future

What a future looks like in memory is determined by how far its two users are: the
call of `future_ready`, which is not made yet, under way or finished, and the call of
`future_await`. A state of the system is described by one such `Stage` for every
future, and every step moves one future from one stage to the next.

The last access of `future_ready` is its `eventfd_write`, and nothing is released
before the counter has been read; so the two never meet.
-/

namespace Osi

namespace Future

open Transition
open Memory (Addr)

inductive Writer (T : Type*)
  | unused
  | busy (t : T) (value : Addr) (k : ReadyPoint)
  | done (value : Addr)

inductive Reader (T : Type*)
  | unused
  | awaiting (t : T) (k : AwaitPoint)
  | freeing (t : T) (value : Addr) (k : FreePoint)
  | done (value : Addr)

inductive Stage (T : Type*)
  | absent
  | creating (t : T) (k : CreatePoint)
  /-- released again by a `future_new` that returned `NULL` -/
  | failed
  | shared (writer : Writer T) (reader : Reader T)
  | immediate (value : Addr) (reader : Reader T)

namespace Writer

variable {T : Type*}

def flag : Writer T → Bool
  | unused | busy _ _ .check | busy _ _ .flag => true
  | _ => false

def result : Writer T → Addr
  | unused | busy _ _ .check | busy _ _ .flag | busy _ _ .result => 0
  | busy _ value _ => value
  | done value => value

def posted : Writer T → ℕ
  | done _ => 1
  | _ => 0

def value : Writer T → Option Addr
  | unused => none
  | busy _ value _ | done value => some value

def Claims (n : ℕ) (t : T) (v : Pc) : Writer T → Prop
  | busy u value k => t = u ∧ v = .ready n value k
  | _ => False

end Writer

namespace Reader

variable {T : Type*}

def taken : Reader T → ℕ
  | awaiting _ .result | freeing _ _ _ | done _ => 1
  | _ => 0

def allocated : Reader T → Bool
  | done _ => false
  | _ => true

def semaphoreAllocated : Reader T → Bool
  | done _ | freeing _ _ .release => false
  | _ => true

def isOpen : Reader T → Bool
  | done _ | freeing _ _ .release | freeing _ _ .releaseSemaphore => false
  | _ => true

def value : Reader T → Option Addr
  | freeing _ value _ | done value => some value
  | _ => none

def direct : Reader T → Bool
  | awaiting _ .semaphore | awaiting _ .fd | awaiting _ .read => false
  | freeing _ _ .close | freeing _ _ .releaseSemaphore => false
  | _ => true

def used : Reader T → Bool
  | unused => false
  | _ => true

def returned : Reader T → Option Addr
  | done value => some value
  | _ => none

def Claims (n : ℕ) (t : T) (v : Pc) : Reader T → Prop
  | awaiting u k => t = u ∧ v = .await n k
  | freeing u value k => t = u ∧ v = .free n value k
  | _ => False

end Reader

namespace Stage

variable {T : Type*}

def created : CreatePoint → Object
  | .eventfd => { Object.calloc with semaphoreAllocated := true }
  | .ready => { Object.calloc with semaphoreAllocated := true, fd := some 0 }
  | _ => Object.calloc

def object : Stage T → Option Object
  | absent => none
  | creating _ k => some (created k)
  | failed => some { Object.calloc with allocated := false }
  | shared w r => some
      { readyCanBeCalled := w.flag
        hasSemaphore := true
        result := w.result
        allocated := r.allocated
        semaphoreAllocated := r.semaphoreAllocated
        fd := if r.isOpen then some (w.posted - r.taken) else none }
  | immediate value r => some
      { readyCanBeCalled := false
        hasSemaphore := false
        result := value
        allocated := r.allocated
        semaphoreAllocated := false
        fd := none }

def Claims (n : ℕ) (t : T) (v : Pc) : Stage T → Prop
  | creating u k => t = u ∧ v = .create n k
  | shared w r => w.Claims n t v ∨ r.Claims n t v
  | immediate _ r => r.Claims n t v
  | _ => False

/-- The reader gets past the eventfd only after the writer, and with its value. -/
def Wf : Stage T → Prop
  | shared w r => r.taken ≤ w.posted ∧ ∀ value, r.value = some value → w = .done value
  | immediate value r => r.direct = true ∧ ∀ x, r.value = some x → x = value
  | _ => True

/-- How far the reader is; nothing is awaited before the future is returned. -/
def reader : Stage T → Reader T
  | shared _ r | immediate _ r => r
  | _ => .unused

def setReader (r : Reader T) : Stage T → Stage T
  | shared w _ => shared w r
  | immediate value _ => immediate value r
  | g => g

structure Record where
  shared : Bool
  immediate : Option Addr
  readied : Option Addr
  awaits : Bool
  awaited : Option Addr

def record : Stage T → Record
  | shared w r => ⟨true, none, w.value, r.used, r.returned⟩
  | immediate value r => ⟨false, some value, none, r.used, r.returned⟩
  | _ => ⟨false, none, none, false, none⟩

theorem record_setReader {g : Stage T} (h : g.reader ≠ .unused) (r : Reader T) :
    (g.setReader r).record =
      { g.record with awaits := r.used, awaited := r.returned } := by
  cases g <;> first | rfl | exact absurd rfl h

theorem record_awaits (g : Stage T) :
    g.record.awaits = g.reader.used ∧ g.record.awaited = g.reader.returned := by
  cases g <;> exact ⟨rfl, rfl⟩

end Stage

structure Recorded {T : Type*} (s : State T) (n : ℕ) (r : Stage.Record) : Prop where
  futures : n ∈ s.futures ↔ r.shared = true
  immediates : ∀ value, (n, value) ∈ s.immediates ↔ r.immediate = some value
  readied : ∀ value, (n, value) ∈ s.readied ↔ r.readied = some value
  awaits : n ∈ s.awaits ↔ r.awaits = true
  awaited : ∀ value, (n, value) ∈ s.awaited ↔ r.awaited = some value

structure Staged {T : Type*} (stage : ℕ → Stage T) (s : State T) : Prop where
  objects : ∀ n, s.objects n = (stage n).object
  claims : ∀ n t v, (stage n).Claims n t v → s.pc t = v
  busy : ∀ t, (∃ r, s.pc t = .idle r) ∨ ∃ n, (stage n).Claims n t (s.pc t)
  wf : ∀ n, (stage n).Wf
  fresh : ∀ n, s.next ≤ n → stage n = .absent
  recorded : ∀ n, Recorded s n (stage n).record

namespace Pc

def future : Pc → Option ℕ
  | idle _ => none
  | create n _ | ready n _ _ | await n _ | free n _ _ => some n

end Pc

section Staged

variable {T : Type*} {stage : ℕ → Stage T} {s s' : State T} {t : T} {n : ℕ} {v : Pc} {g : Stage T}

theorem staged_init : Staged (fun _ => .absent) (State.init : State T) where
  objects n := rfl
  claims n t v h := h.elim
  busy t := .inl ⟨.done, rfl⟩
  wf n := trivial
  fresh n h := rfl
  recorded n := by constructor <;> simp [State.init, Stage.record]

theorem Writer.Claims.future {w : Writer T} (h : w.Claims n t v) : v.future = some n := by
  cases w <;> first | cases h; done | (obtain ⟨-, rfl⟩ := h; rfl)

theorem Reader.Claims.future {r : Reader T} (h : r.Claims n t v) : v.future = some n := by
  cases r <;> first | cases h; done | (obtain ⟨-, rfl⟩ := h; rfl)

theorem Stage.Claims.future (h : g.Claims n t v) : v.future = some n := by
  cases g with
  | absent => cases h
  | creating u k => obtain ⟨-, rfl⟩ := h; rfl
  | failed => cases h
  | shared w r =>
      rcases h with h | h
      · exact Writer.Claims.future h
      · exact Reader.Claims.future h
  | immediate value r => exact Reader.Claims.future h

theorem Reader.Claims.ne_unused {r : Reader T} (h : r.Claims n t v) {r' : Reader T}
    (hr' : r' = r) : r' ≠ .unused := by
  rintro rfl
  rw [← hr'] at h
  cases h

theorem Reader.Claims.unique {r r' : Reader T} (h : r.Claims n t v) (h' : r'.Claims n t v) :
    r' = r := by
  cases r <;> cases r' <;> simp_all [Reader.Claims]

theorem Writer.Claims.not_reader {w : Writer T} (h : w.Claims n t v) (r : Reader T) (m : ℕ)
    (u : T) : ¬ r.Claims m u v := by
  cases w <;> cases r <;> simp_all [Writer.Claims, Reader.Claims]

namespace Staged

/-- The stage of the future that a thread works on says so. -/
theorem claims_self (h : Staged stage s) (hfuture : (s.pc t).future = some n) :
    (stage n).Claims n t (s.pc t) := by
  rcases h.busy t with ⟨r, hidle⟩ | ⟨m, hm⟩
  · rw [hidle] at hfuture
    cases hfuture
  · obtain rfl : m = n := Option.some.inj (hm.future.symm.trans hfuture)
    exact hm

theorem not_claims (h : Staged stage s) {m : ℕ} (hfuture : (s.pc t).future ≠ some m)
    (v : Pc) : ¬ (stage m).Claims m t v := by
  intro hclaims
  obtain rfl := h.claims m t v hclaims
  exact hfuture hclaims.future

end Staged

end Staged

end Future

end Osi
