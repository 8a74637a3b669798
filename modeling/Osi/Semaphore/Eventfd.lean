import Osi.Transition.Run
import Osi.Transition.Threads
import Mathlib.Algebra.Group.Nat.Defs

/-!
# The semaphore on its eventfd

`semaphore.c` implements a counting semaphore by an `EFD_SEMAPHORE` eventfd. The
steps here are the system calls that `semaphore_wait`, `semaphore_try_wait` and
`semaphore_post` issue on one semaphore, and those of several threads interleave
freely. The file status flags belong to the open file, so `semaphore_try_wait`
changes them for every thread between its two calls of `F_SETFL`.

`waits`, `tries` and `posts` count the calls that have returned, returned `true`
and taken effect; no step looks at them.
-/

namespace Osi

def semaphoreNew (value : UInt32) : ℕ := value.toNat

namespace Semaphore

open Transition

def oRdwr : UInt32 := 0x2

def oNonblock : UInt32 := 0x800

def eventfdMax : ℕ := 2 ^ 64 - 2

inductive Op
  | wait
  | tryWait
  | post
  deriving DecidableEq, Repr

/-- The system call that a thread is about to issue or waits in; `flags` is the
local variable of `semaphore_try_wait`. -/
inductive Pc
  | idle
  | waitRead
  /-- asleep in the `eventfd_read` of `semaphore_wait` -/
  | waitBlocked
  | tryGetfl
  | trySetfl (flags : UInt32)
  | tryRead (flags : UInt32)
  | tryBlocked (flags : UInt32)
  | tryRestore (flags : UInt32) (rc : Bool)
  | postWrite
  | postBlocked
  deriving DecidableEq, Repr

inductive Fault
  /-- the thread sleeps in the kernel -/
  | blocked
  /-- the thread is not at the point of the program the label belongs to -/
  | notEnabled
  deriving DecidableEq, Repr

/-- The steps: a thread calls an operation, or issues its next system call. -/
inductive Label (T : Type*)
  | call (t : T) (op : Op)
  | run (t : T)
  deriving DecidableEq, Repr

structure State (T : Type*) where
  counter : ℕ
  flags : UInt32
  pc : T → Pc
  waits : ℕ
  tries : ℕ
  posts : ℕ

def Op.entry : Op → Pc
  | wait => .waitRead
  | tryWait => .tryGetfl
  | post => .postWrite

namespace State

variable {T : Type*}

def init (value : UInt32) : State T where
  counter := semaphoreNew value
  flags := oRdwr
  pc _ := .idle
  waits := 0
  tries := 0
  posts := 0

def nonblocking (s : State T) : Bool := s.flags &&& oNonblock ≠ 0

/-- No call is in progress. -/
def Idle (s : State T) : Prop := ∀ t, s.pc t = .idle

variable [DecidableEq T]

def goto (s : State T) (t : T) (v : Pc) : State T :=
  { s with pc := Function.update s.pc t v }

/-- The thread `t` issues its next system call, or wakes up in it. -/
def advance (s : State T) (t : T) : Except Fault (State T) :=
  match s.pc t with
  | .idle => .error .notEnabled
  | .waitRead =>
      if s.counter = 0 then
        -- the error of `eventfd_read` is only logged
        if s.nonblocking then .ok ({ s with waits := s.waits + 1 }.goto t .idle)
        else .ok (s.goto t .waitBlocked)
      else
        .ok ({ s with counter := s.counter - 1, waits := s.waits + 1 }.goto t .idle)
  | .waitBlocked =>
      if s.counter = 0 then .error .blocked
      else
        .ok ({ s with counter := s.counter - 1, waits := s.waits + 1 }.goto t .idle)
  | .tryGetfl => .ok (s.goto t (.trySetfl s.flags))
  | .trySetfl flags =>
      .ok ({ s with flags := flags ||| oNonblock }.goto t (.tryRead flags))
  | .tryRead flags =>
      if s.counter = 0 then
        if s.nonblocking then .ok (s.goto t (.tryRestore flags false))
        else .ok (s.goto t (.tryBlocked flags))
      else .ok ({ s with counter := s.counter - 1 }.goto t (.tryRestore flags true))
  | .tryBlocked flags =>
      if s.counter = 0 then .error .blocked
      else .ok ({ s with counter := s.counter - 1 }.goto t (.tryRestore flags true))
  | .tryRestore flags rc =>
      .ok ({ s with flags := flags, tries := s.tries + rc.toNat }.goto t .idle)
  | .postWrite =>
      if s.counter = eventfdMax then
        if s.nonblocking then .ok (s.goto t .idle)
        else .ok (s.goto t .postBlocked)
      else
        .ok ({ s with counter := s.counter + 1, posts := s.posts + 1 }.goto t .idle)
  | .postBlocked =>
      if s.counter = eventfdMax then .error .blocked
      else
        .ok ({ s with counter := s.counter + 1, posts := s.posts + 1 }.goto t .idle)

def step (s : State T) : Label T → Except Fault (State T)
  | .call t op =>
      match s.pc t with
      | .idle => .ok (s.goto t op.entry)
      | _ => .error .notEnabled
  | .run t => s.advance t

/-- Two things do not happen while another `semaphore_try_wait` has `O_NONBLOCK`
set: a `F_GETFL` of `semaphore_try_wait`, and an `eventfd_read` of
`semaphore_wait` that finds no token. -/
def Undisturbed (s : State T) : Label T → Prop
  | .call _ _ => True
  | .run t =>
      (s.pc t = .tryGetfl → s.nonblocking = false) ∧
        (s.pc t = .waitRead → s.nonblocking = false ∨ s.counter ≠ 0)

instance (s : State T) (l : Label T) : Decidable (Undisturbed s l) :=
  match l with
  | .call _ _ => isTrue trivial
  | .run _ => inferInstanceAs (Decidable (_ ∧ _))

end State

/-! ## The law -/

namespace Pc

/-- A `semaphore_try_wait` that has a token and has not returned. -/
def hasToken : Pc → Bool
  | tryRestore _ rc => rc
  | _ => false

def inWindow : Pc → Bool
  | tryRead _ | tryBlocked _ | tryRestore _ _ => true
  | _ => false

def saved : Pc → Option UInt32
  | trySetfl flags | tryRead flags | tryBlocked flags | tryRestore flags _ => some flags
  | _ => none

end Pc

section Law

variable {T : Type*} [Fintype T] {value : UInt32} {s s' : State T} {t : T} {w v : Pc}

/-- The invariant: the tokens are conserved, every saved flag word is the
created one, and `O_NONBLOCK` is set only while some thread is to clear it. -/
structure Invariant (value : UInt32) (s : State T) : Prop where
  tokens : s.counter + s.waits + s.tries + threads Pc.hasToken s.pc =
    semaphoreNew value + s.posts
  saved : ∀ t flags, (s.pc t).saved = some flags → flags = oRdwr
  flags : s.flags = oRdwr ∨
    s.flags = oRdwr ||| oNonblock ∧ ∃ t, (s.pc t).inWindow = true

namespace Invariant

theorem init (value : UInt32) : Invariant value (State.init value : State T) where
  tokens := by
    rw [threads_eq_zero fun _ => rfl]
    rfl
  saved t flags h := by cases h
  flags := Or.inl rfl

theorem flags_of_blocking (h : Invariant value s) (hflags : s.nonblocking = false) :
    s.flags = oRdwr := by
  rcases h.flags with hset | ⟨hset, _⟩
  · exact hset
  · rw [State.nonblocking, hset] at hflags
    exact absurd hflags (by decide)

variable [DecidableEq T]

/-- A step of the thread `t`: it keeps the balance of the tokens, and it leaves
the window only with the flags restored. -/
theorem move (h : Invariant value s) (hpc : s'.pc = Function.update s.pc t v)
    (htokens : s'.counter + s'.waits + s'.tries + v.hasToken.toNat + s.posts =
      s.counter + s.waits + s.tries + (s.pc t).hasToken.toNat + s'.posts)
    (hsaved : ∀ flags, v.saved = some flags → flags = oRdwr)
    (hflags : s'.flags = oRdwr ∨ s'.flags = oRdwr ||| oNonblock ∧ v.inWindow = true ∨
      s'.flags = s.flags ∧ ((s.pc t).inWindow = true → v.inWindow = true)) :
    Invariant value s' := by
  refine ⟨?_, ?_, ?_⟩
  · have hupdate := threads_update Pc.hasToken s.pc t v
    have := h.tokens
    rw [hpc]
    omega
  · intro u flags hu
    rw [hpc] at hu
    by_cases hut : u = t
    · subst hut
      rw [Function.update_self] at hu
      exact hsaved flags hu
    · rw [Function.update_of_ne hut] at hu
      exact h.saved u flags hu
  · rcases hflags with hset | ⟨hset, hv⟩ | ⟨hset, hv⟩
    · exact Or.inl hset
    · refine Or.inr ⟨hset, t, ?_⟩
      rw [hpc, Function.update_self]
      exact hv
    · rw [hset]
      rcases h.flags with hclear | ⟨hnonblock, u, hu⟩
      · exact Or.inl hclear
      · refine Or.inr ⟨hnonblock, u, ?_⟩
        rw [hpc]
        by_cases hut : u = t
        · subst hut
          rw [Function.update_self]
          exact hv hu
        · rw [Function.update_of_ne hut]
          exact hu

/-- A step of the thread `t` that leaves the flags alone. -/
theorem keep (h : Invariant value s) (hw : s.pc t = w)
    (hpc : s'.pc = Function.update s.pc t v) (hflags : s'.flags = s.flags)
    (htokens : s'.counter + s'.waits + s'.tries + v.hasToken.toNat + s.posts =
      s.counter + s.waits + s.tries + w.hasToken.toNat + s'.posts)
    (hsaved : v.saved = none ∨ v.saved = w.saved)
    (hwindow : w.inWindow = true → v.inWindow = true) : Invariant value s' := by
  subst hw
  refine h.move hpc htokens ?_ (Or.inr (Or.inr ⟨hflags, hwindow⟩))
  intro flags hv
  rcases hsaved with hnone | hsame
  · rw [hnone] at hv
    cases hv
  · exact h.saved t flags (hsame ▸ hv)

theorem advance (h : Invariant value s) (hl : State.Undisturbed s (.run t))
    (hs' : s.advance t = .ok s') : Invariant value s' := by
  cases hpc : s.pc t with
  | idle =>
      simp only [State.advance, hpc] at hs'
      cases hs'
  | waitRead =>
      simp only [State.advance, hpc] at hs'
      split_ifs at hs' with hcounter hflags
      · exact absurd (hl.2 hpc) (by simp [hcounter, hflags])
      · cases hs'
        exact h.keep hpc rfl rfl rfl (Or.inl rfl) (by simp [Pc.inWindow])
      · cases hs'
        refine h.keep hpc rfl rfl ?_ (Or.inl rfl) (by simp [Pc.inWindow])
        simp only [State.goto, Pc.hasToken, Bool.toNat_false]
        omega
  | waitBlocked =>
      simp only [State.advance, hpc] at hs'
      split_ifs at hs' with hcounter
      cases hs'
      refine h.keep hpc rfl rfl ?_ (Or.inl rfl) (by simp [Pc.inWindow])
      simp only [State.goto, Pc.hasToken, Bool.toNat_false]
      omega
  | tryGetfl =>
      simp only [State.advance, hpc] at hs'
      cases hs'
      refine h.move rfl ?_ ?_ (Or.inr (Or.inr ⟨rfl, ?_⟩))
      · simp [State.goto, hpc, Pc.hasToken]
      · intro flags hflags
        obtain rfl : s.flags = flags := Option.some.inj hflags
        exact h.flags_of_blocking (hl.1 hpc)
      · simp [hpc, Pc.inWindow]
  | trySetfl flags =>
      simp only [State.advance, hpc] at hs'
      cases hs'
      obtain rfl : flags = oRdwr := h.saved t flags (by rw [hpc]; rfl)
      refine h.move rfl ?_ (by simp [Pc.saved]) (Or.inr (Or.inl ⟨rfl, rfl⟩))
      simp [State.goto, hpc, Pc.hasToken]
  | tryRead flags =>
      simp only [State.advance, hpc] at hs'
      split_ifs at hs' with hcounter hflags
      · cases hs'
        exact h.keep hpc rfl rfl rfl (Or.inr rfl) fun _ => rfl
      · cases hs'
        exact h.keep hpc rfl rfl rfl (Or.inr rfl) fun _ => rfl
      · cases hs'
        refine h.keep hpc rfl rfl ?_ (Or.inr rfl) fun _ => rfl
        simp only [State.goto, Pc.hasToken, Bool.toNat_false, Bool.toNat_true]
        omega
  | tryBlocked flags =>
      simp only [State.advance, hpc] at hs'
      split_ifs at hs' with hcounter
      cases hs'
      refine h.keep hpc rfl rfl ?_ (Or.inr rfl) fun _ => rfl
      simp only [State.goto, Pc.hasToken, Bool.toNat_false, Bool.toNat_true]
      omega
  | tryRestore flags rc =>
      have hsaved := h.saved t flags (by rw [hpc]; rfl)
      simp only [State.advance, hpc] at hs'
      cases hs'
      refine h.move rfl ?_ (by simp [Pc.saved]) (Or.inl hsaved)
      simp only [State.goto, hpc, Pc.hasToken, Bool.toNat_false]
      omega
  | postWrite =>
      simp only [State.advance, hpc] at hs'
      split_ifs at hs' with hcounter hflags
      · cases hs'
        exact h.keep hpc rfl rfl rfl (Or.inl rfl) (by simp [Pc.inWindow])
      · cases hs'
        exact h.keep hpc rfl rfl rfl (Or.inl rfl) (by simp [Pc.inWindow])
      · cases hs'
        refine h.keep hpc rfl rfl ?_ (Or.inl rfl) (by simp [Pc.inWindow])
        simp only [State.goto, Pc.hasToken, Bool.toNat_false]
        omega
  | postBlocked =>
      simp only [State.advance, hpc] at hs'
      split_ifs at hs' with hcounter
      cases hs'
      refine h.keep hpc rfl rfl ?_ (Or.inl rfl) (by simp [Pc.inWindow])
      simp only [State.goto, Pc.hasToken, Bool.toNat_false]
      omega

theorem step (h : Invariant value s) {l : Label T} (hl : State.Undisturbed s l)
    (hs' : s.step l = .ok s') : Invariant value s' := by
  cases l with
  | call t op =>
      simp only [State.step] at hs'
      split at hs'
      · rename_i hpc
        cases hs'
        refine h.keep hpc rfl rfl ?_ (Or.inl ?_) (by simp [Pc.inWindow])
        · cases op <;> rfl
        · cases op <;> rfl
      · cases hs'
  | run t => exact h.advance hl hs'

end Invariant

/-- In every run whose system calls are undisturbed: no more calls have returned
with a token than there were tokens, and with no call in progress the fd is in
the blocking mode that it was created in. -/
theorem semaphore_law [DecidableEq T] (value : UInt32) (s : State T)
    (h : Reachable (Guarded State.Undisturbed (Next State.step)) (State.init value) s) :
    s.waits + s.tries ≤ semaphoreNew value + s.posts ∧ (s.Idle → s.flags = oRdwr) := by
  have hinv : Invariant value s :=
    h.invariant (fun _ _ _ hs hstep => hs.step hstep.1 hstep.2) (Invariant.init value)
  refine ⟨?_, ?_⟩
  · have := hinv.tokens
    omega
  · intro hidle
    rcases hinv.flags with hflags | ⟨_, t, ht⟩
    · exact hflags
    · rw [hidle t] at ht
      cases ht

end Law

/-- One thread fails to get a token and then sleeps until the other has posted
one. -/
def tryThenWait : List (Label (Fin 2)) :=
  [.call 0 .tryWait, .run 0, .run 0, .run 0, .run 0, .call 0 .wait, .run 0,
    .call 1 .post, .run 1, .run 0]

theorem semaphore_law_tryThenWait :
    ∃ s : State (Fin 2), s.waits = 1 ∧ s.posts = 1 ∧ s.flags = oRdwr := by
  have hend : ((exec (fun s l => decide (State.Undisturbed s l)) State.step (State.init 0)
      tryThenWait).any fun s => decide (s.waits = 1 ∧ s.posts = 1 ∧
        s.pc 0 = .idle ∧ s.pc 1 = .idle)) = true := by
    decide
  obtain ⟨s, hs, hend⟩ := (Option.any_eq_true _ _).mp hend
  obtain ⟨hwaits, hposts, h0, h1⟩ := of_decide_eq_true hend
  have hidle : s.Idle := by
    intro t
    match t with
    | 0 => exact h0
    | 1 => exact h1
  exact ⟨s, hwaits, hposts, (semaphore_law 0 s (Reachable.of_exec hs)).2 hidle⟩

def waitInWindow : List (Label (Fin 2)) :=
  [.call 0 .tryWait, .run 0, .run 0, .call 1 .wait, .run 1]

/-- The second `semaphore_try_wait` reads the flags inside the window of the
first one and restores them after it. -/
def overlappingTryWaits : List (Label (Fin 2)) :=
  [.call 0 .tryWait, .run 0, .run 0, .call 1 .tryWait, .run 1, .run 0, .run 0,
    .run 1, .run 1, .run 1]

/-- Two orders of system calls that break the law. In the first a
`semaphore_wait` returns although there was never a token. In the second the fd
stays in non-blocking mode after both calls have returned. -/
theorem semaphore_law_broken :
    (∃ s : State (Fin 2), Reachable (Next State.step) (State.init 0) s ∧
      ¬ s.waits + s.tries ≤ semaphoreNew 0 + s.posts) ∧
    ∃ s : State (Fin 2), Reachable (Next State.step) (State.init 0) s ∧
      s.Idle ∧ s.nonblocking = true := by
  refine ⟨?_, ?_⟩
  · have hend : ((exec (fun _ _ => true) State.step (State.init 0) waitInWindow).any
        fun s => decide (¬ s.waits + s.tries ≤ semaphoreNew 0 + s.posts)) = true := by
      decide
    obtain ⟨s, hs, hend⟩ := (Option.any_eq_true _ _).mp hend
    exact ⟨s, Reachable.of_exec_true hs, of_decide_eq_true hend⟩
  · have hend : ((exec (fun _ _ => true) State.step (State.init 0)
        overlappingTryWaits).any fun s => decide ((∀ t, s.pc t = .idle) ∧
          s.nonblocking = true)) = true := by
      decide
    obtain ⟨s, hs, hend⟩ := (Option.any_eq_true _ _).mp hend
    obtain ⟨hidle, hflags⟩ := of_decide_eq_true hend
    exact ⟨s, Reachable.of_exec_true hs, hidle, hflags⟩

end Semaphore

end Osi
