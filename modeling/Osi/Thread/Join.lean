import Osi.Thread.Shutdown.Runs

/-!
# Joining a thread

Any number of callers are in `thread_join` of one thread, which runs on beside them. A
call reads `is_joined`, and if it was clear writes it and calls `pthread_join`; the three
are steps of their own. A call that reads the flag set returns at once, whether or not
the call that set it has come back from `pthread_join`, and two calls that both read it
clear both go on to `pthread_join`. Where neither happens, a call returns only when
`run_thread` has returned, and `pthread_join` is called once at most.
-/

namespace Osi

namespace Thread

def Phase.hasReturned {α : Type*} : Phase α → Bool
  | .returned _ => true
  | _ => false

namespace Join

open Transition
open SharedQueue (Fault)

inductive Pc
  | idle
  | readIsJoined
  | writeIsJoined
  | callPthreadJoin
  /-- in `pthread_join` -/
  | joining
  | returned
  deriving DecidableEq, Repr

/-- A `thread_t` with the callers `U` of `thread_join`; `joins` counts the calls of
`pthread_join`. -/
structure State (U T α : Type*) where
  thread : Thread.State T α
  isJoined : Bool
  pc : U → Pc
  joins : ℕ

inductive Label (U T α : Type*)
  /-- a step of the thread and its clients -/
  | thread (l : Thread.Label T α)
  /-- a caller calls `thread_join` -/
  | call (u : U)
  /-- a caller goes on -/
  | run (u : U)
  deriving DecidableEq, Repr

variable {U T α : Type*} [DecidableEq U] [DecidableEq T] [DecidableEq α]

namespace State

/-- `thread_new_sized`, with nobody joining yet. -/
def init (capacity : UInt64) : State U T α where
  thread := threadNewSized capacity
  isJoined := false
  pc _ := .idle
  joins := 0

def goto (s : State U T α) (u : U) (v : Pc) : State U T α :=
  { s with pc := Function.update s.pc u v }

def advance (s : State U T α) (u : U) : Except Fault (State U T α) :=
  match s.pc u with
  | .readIsJoined =>
      if s.isJoined then .ok (s.goto u .returned) else .ok (s.goto u .writeIsJoined)
  | .writeIsJoined => .ok ({ s with isJoined := true }.goto u .callPthreadJoin)
  | .callPthreadJoin => .ok ({ s with joins := s.joins + 1 }.goto u .joining)
  | .joining =>
      if s.thread.phase.hasReturned then .ok (s.goto u .returned) else .error .blocked
  | .idle | .returned => .error .notEnabled

def step (s : State U T α) : Label U T α → Except Fault (State U T α)
  | .thread l => (s.thread.step l).map fun thread => { s with thread := thread }
  | .call u =>
      match s.pc u with
      | .idle | .returned => .ok (s.goto u .readIsJoined)
      | _ => .error .notEnabled
  | .run u => s.advance u

/-- The calls that have returned have waited for the thread, and there was one
`pthread_join` at most. -/
structure Joined (s : State U T α) : Prop where
  returned : ∀ u, s.pc u = .returned → s.thread.phase.hasReturned = true
  joins : s.joins ≤ 1

/-- A caller that reads the flag set finds that `run_thread` has returned, and one that
reads it clear finds no other caller about to set it. -/
def Alone (s : State U T α) : Label U T α → Prop
  | .run u => s.pc u = .readIsJoined →
      if s.isJoined then s.thread.phase.hasReturned = true
      else ∀ v, v ≠ u → s.pc v ≠ .writeIsJoined
  | _ => True

instance [Fintype U] (s : State U T α) (l : Label U T α) : Decidable (s.Alone l) :=
  match l with
  | .run u => inferInstanceAs (Decidable (s.pc u = .readIsJoined → ite _ _ _))
  | .thread _ => inferInstanceAs (Decidable True)
  | .call _ => inferInstanceAs (Decidable True)

end State

variable {s s' : State U T α}

/-! ### One step -/

inductive Effect (s : State U T α) : Label U T α → State U T α → Prop
  | thread {l : Thread.Label T α} {thread : Thread.State T α} (h : s.thread.step l = .ok thread) :
      Effect s (.thread l) { s with thread := thread }
  | call (u : U) : Effect s (.call u) (s.goto u .readIsJoined)
  | readSet {u : U} (hpc : s.pc u = .readIsJoined) (hset : s.isJoined = true) :
      Effect s (.run u) (s.goto u .returned)
  | readClear {u : U} (hpc : s.pc u = .readIsJoined) (hclear : s.isJoined = false) :
      Effect s (.run u) (s.goto u .writeIsJoined)
  | write {u : U} (hpc : s.pc u = .writeIsJoined) :
      Effect s (.run u) ({ s with isJoined := true }.goto u .callPthreadJoin)
  | join {u : U} (hpc : s.pc u = .callPthreadJoin) :
      Effect s (.run u) ({ s with joins := s.joins + 1 }.goto u .joining)
  | wake {u : U} (hpc : s.pc u = .joining) (hreturned : s.thread.phase.hasReturned = true) :
      Effect s (.run u) (s.goto u .returned)

theorem effect_of_step {l : Label U T α} (h : s.step l = .ok s') : Effect s l s' := by
  cases l with
  | thread l =>
    obtain ⟨thread, hthread, rfl⟩ := map_eq_ok h
    exact .thread hthread
  | call u =>
    simp only [State.step] at h
    split at h
    · cases h
      exact .call u
    · cases h
      exact .call u
    · cases h
  | run u =>
    simp only [State.step, State.advance] at h
    split at h
    · rename_i hpc
      split_ifs at h with hset
      · cases h
        exact .readSet hpc hset
      · cases h
        exact .readClear hpc (Bool.eq_false_iff.mpr hset)
    · rename_i hpc
      cases h
      exact .write hpc
    · rename_i hpc
      cases h
      exact .join hpc
    · rename_i hpc
      split_ifs at h with hreturned
      cases h
      exact .wake hpc hreturned
    · cases h
    · cases h

/-- A thread that has returned does not run again. -/
theorem hasReturned_of_step {t t' : Thread.State T α} {l : Thread.Label T α}
    (h : t.step l = .ok t') (hreturned : t.phase.hasReturned = true) :
    t'.phase.hasReturned = true := by
  cases Thread.effect_of_step h with
  | client _ _ => exact hreturned
  | stop _ => exact hreturned
  | enqueue _ _ => exact hreturned
  | dequeue _ _ => exact hreturned
  | giveUp _ _ _ => rfl
  | empty _ _ => rfl
  | _ hphase =>
    rw [hphase] at hreturned
    cases hreturned

/-! ### Runs -/

/-- The points between the read of a clear flag and the call of `pthread_join`. -/
def Pc.willJoin : Pc → Bool
  | .writeIsJoined | .callPthreadJoin => true
  | _ => false

structure Invariant (s : State U T α) : Prop where
  joined : s.Joined
  unique : ∀ u v, (s.pc u).willJoin = true → (s.pc v).willJoin = true → u = v
  first : ∀ u, (s.pc u).willJoin = true → s.joins = 0
  clear : s.isJoined = false → s.joins = 0 ∧ ∀ u, s.pc u ≠ .callPthreadJoin
  set : s.isJoined = true → ∀ u, s.pc u ≠ .writeIsJoined

omit [DecidableEq U] [DecidableEq T] [DecidableEq α] in
theorem invariant_init (capacity : UInt64) : Invariant (State.init capacity : State U T α) where
  joined := ⟨nofun, Nat.zero_le 1⟩
  unique := nofun
  first := nofun
  clear _ := ⟨rfl, nofun⟩
  set := nofun

omit [DecidableEq T] [DecidableEq α] in
/-- A caller that goes to a point where it has nothing to do with `pthread_join`. -/
theorem Invariant.goto (hinv : Invariant s) {u : U} {v : Pc} (hv : v.willJoin = false)
    (hreturned : v = .returned → s.thread.phase.hasReturned = true) :
    Invariant (s.goto u v) := by
  have hold : ∀ w, ((s.goto u v).pc w).willJoin = true → (s.pc w).willJoin = true := by
    intro w hw
    rcases update_cases Pc.willJoin hw rfl with ⟨-, hw⟩ | ⟨-, hw⟩
    · exact absurd hw (Bool.eq_false_iff.mp hv)
    · exact hw
  have hpoint : ∀ w v', v'.willJoin = true → (s.goto u v).pc w = v' → s.pc w = v' := by
    intro w v' hv' hw
    rcases update_cases id hw rfl with ⟨-, hw⟩ | ⟨-, hw⟩
    · change v = v' at hw
      rw [hw, hv'] at hv
      cases hv
    · exact hw
  refine ⟨⟨fun w hw => ?_, hinv.joined.joins⟩, ?_, ?_, ?_, ?_⟩
  · rcases update_cases id hw rfl with ⟨-, hw⟩ | ⟨-, hw⟩
    · exact hreturned hw
    · exact hinv.joined.returned w hw
  · exact fun w w' hw hw' => hinv.unique w w' (hold w hw) (hold w' hw')
  · exact fun w hw => hinv.first w (hold w hw)
  · intro hclear
    obtain ⟨hzero, hnone⟩ := hinv.clear hclear
    exact ⟨hzero, fun w hw => hnone w (hpoint w _ rfl hw)⟩
  · exact fun hset w hw => hinv.set hset w (hpoint w _ rfl hw)

omit [DecidableEq T] [DecidableEq α] in
/-- The only caller on its way to `pthread_join` goes a step on that way. -/
theorem Invariant.of_only (hinv : Invariant s) {u : U} {v : Pc}
    (hpc : s'.pc = Function.update s.pc u v) (hthread : s'.thread = s.thread)
    (hv : v ≠ .returned) (honly : ∀ w, w ≠ u → (s.pc w).willJoin = false)
    (hjoins : s'.joins ≤ 1) (hfirst : v.willJoin = true → s'.joins = 0)
    (hclear : s'.isJoined = false → s'.joins = 0 ∧ v ≠ .callPthreadJoin)
    (hset : s'.isJoined = true → v ≠ .writeIsJoined) : Invariant s' := by
  have hwill : ∀ w, (s'.pc w).willJoin = true → w = u ∧ v.willJoin = true := by
    intro w hw
    rcases update_cases Pc.willJoin hw hpc with hw | ⟨hne, hw⟩
    · exact hw
    · exact absurd hw (Bool.eq_false_iff.mp (honly w hne))
  have hpoint : ∀ w v', v'.willJoin = true → s'.pc w = v' → v = v' := by
    intro w v' hv' hw
    obtain ⟨rfl, -⟩ := hwill w (hw ▸ hv')
    rw [hpc, Function.update_self] at hw
    exact hw
  refine ⟨⟨fun w hw => ?_, hjoins⟩, ?_, ?_, ?_, ?_⟩
  · rw [hthread]
    rcases update_cases id hw hpc with ⟨-, hw⟩ | ⟨-, hw⟩
    · exact absurd hw hv
    · exact hinv.joined.returned w hw
  · exact fun w w' hw hw' => (hwill w hw).1.trans (hwill w' hw').1.symm
  · exact fun w hw => hfirst (hwill w hw).2
  · intro h
    obtain ⟨hzero, hne⟩ := hclear h
    exact ⟨hzero, fun w hw => hne (hpoint w _ rfl hw)⟩
  · exact fun h w hw => hset h (hpoint w _ rfl hw)

omit [DecidableEq U] [DecidableEq T] [DecidableEq α] in
theorem Invariant.willJoin_of_ne (hinv : Invariant s) {u w : U} (hu : (s.pc u).willJoin = true)
    (hne : w ≠ u) : (s.pc w).willJoin = false := by
  by_contra hw
  exact hne (hinv.unique w u (by simpa using hw) hu)

theorem Invariant.step {l : Label U T α} (hinv : Invariant s) (hguard : s.Alone l)
    (h : Effect s l s') : Invariant s' := by
  cases h with
  | thread h =>
    have hjoined := hinv.joined
    refine ⟨⟨fun u hu => ?_, hjoined.joins⟩, hinv.unique, hinv.first, hinv.clear, hinv.set⟩
    exact hasReturned_of_step h (hjoined.returned u hu)
  | call u => exact hinv.goto rfl (fun h => by cases h)
  | readSet hpc hset =>
    have hreturned := hguard hpc
    rw [if_pos hset] at hreturned
    exact hinv.goto rfl fun _ => hreturned
  | @readClear u hpc hclear =>
    have hnone := hguard hpc
    rw [if_neg (Bool.eq_false_iff.mp hclear)] at hnone
    obtain ⟨hzero, hcall⟩ := hinv.clear hclear
    -- nobody else is on its way: the flag is clear, and the guard excludes a writer
    have honly : ∀ w, w ≠ u → (s.pc w).willJoin = false := by
      intro w hne
      cases hw : s.pc w with
      | writeIsJoined => exact absurd hw (hnone w hne)
      | callPthreadJoin => exact absurd hw (hcall w)
      | _ => rfl
    refine hinv.of_only rfl rfl (by decide) honly hinv.joined.joins (fun _ => hzero) ?_ ?_
    · exact fun _ => ⟨hzero, by decide⟩
    · exact fun hset => absurd hset (Bool.eq_false_iff.mp hclear)
  | @write u hpc =>
    have hwill : (s.pc u).willJoin = true := by
      rw [hpc]
      rfl
    refine hinv.of_only rfl rfl (by decide) (fun w hne => hinv.willJoin_of_ne hwill hne)
      hinv.joined.joins (fun _ => hinv.first u hwill) ?_ fun _ => by decide
    intro hclear
    cases hclear
  | @join u hpc =>
    have hwill : (s.pc u).willJoin = true := by
      rw [hpc]
      rfl
    have hset : s.isJoined = true := by
      by_contra hclear
      exact (hinv.clear (Bool.eq_false_iff.mpr hclear)).2 u hpc
    refine hinv.of_only rfl rfl (by decide) (fun w hne => hinv.willJoin_of_ne hwill hne) ?_ ?_ ?_
      fun _ => by decide
    · change s.joins + 1 ≤ 1
      rw [hinv.first u hwill]
    · intro hwill
      cases hwill
    · intro hclear
      cases hset.symm.trans hclear
  | wake hpc hreturned => exact hinv.goto rfl fun _ => hreturned

end Join

end Thread

end Osi
