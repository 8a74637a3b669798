import Mathlib.Data.Fintype.Card
import Mathlib.Logic.Function.Basic

/-!
# Threads, locks and counting

A system of threads keeps the program point of each thread in a function
`pc : T → P`, and a step of the thread `t` is an update of `pc` at `t`. Two
facts about such systems are used over and over: how many threads are at the
points that a predicate selects, and that the points inside a critical section
are occupied only by the thread that holds the lock.

A lock that its owner may take again is a `RecursiveMutex`; `depth` is how many
times a thread has it.
-/

namespace Transition

def threads {T P : Type*} [Fintype T] (p : P → Bool) (pc : T → P) : ℕ :=
  (Finset.univ.filter fun t => p (pc t) = true).card

section Threads

variable {T P : Type*} [Fintype T] {p : P → Bool} {pc : T → P}

theorem threads_pos {t : T} (h : p (pc t) = true) : 0 < threads p pc :=
  Finset.card_pos.mpr ⟨t, by simpa using h⟩

theorem threads_eq_zero (h : ∀ t, p (pc t) = false) : threads p pc = 0 := by
  simp [threads, h]

/-- A thread that moves leaves one point and arrives at another. -/
theorem threads_update [DecidableEq T] (p : P → Bool) (pc : T → P) (t : T) (v : P) :
    threads p (Function.update pc t v) + (p (pc t)).toNat =
      threads p pc + (p v).toNat := by
  have hsplit : ∀ pc' : T → P, threads p pc' =
      ((Finset.univ.erase t).filter fun u => p (pc' u) = true).card +
        (p (pc' t)).toNat := by
    intro pc'
    unfold threads
    rw [← Finset.insert_erase (Finset.mem_univ t), Finset.filter_insert]
    cases hp : p (pc' t) with
    | false => simp
    | true => simp
  have hrest : ((Finset.univ.erase t).filter
      fun u => p (Function.update pc t v u) = true) =
      (Finset.univ.erase t).filter fun u => p (pc u) = true := by
    apply Finset.filter_congr
    intro u hu
    rw [Function.update_of_ne (Finset.ne_of_mem_erase hu)]
  rw [hsplit (Function.update pc t v), hsplit pc, hrest, Function.update_self]
  omega

end Threads

/-- What is said of a thread after a move is said of the point that was moved to, or
was said before of another thread. -/
theorem update_cases {T P β : Type*} [DecidableEq T] (f : P → β) {pc pc' : T → P} {t u : T}
    {v : P} {b : β} (h : f (pc' u) = b) (hpc : pc' = Function.update pc t v) :
    u = t ∧ f v = b ∨ u ≠ t ∧ f (pc u) = b := by
  subst hpc
  by_cases hut : u = t
  · subst hut
    rw [Function.update_self] at h
    exact .inl ⟨rfl, h⟩
  · rw [Function.update_of_ne hut] at h
    exact .inr ⟨hut, h⟩

/-- The points that `holds` selects are occupied exactly by the holder of the
lock. -/
def Exclusive {T P : Type*} (holds : P → Bool) (lock : Option T) (pc : T → P) : Prop :=
  ∀ t, holds (pc t) = true ↔ lock = some t

namespace Exclusive

variable {T P : Type*} {holds : P → Bool} {lock : Option T} {pc : T → P} {t u : T}
  {v : P}

theorem unique (h : Exclusive holds lock pc) (ht : holds (pc t) = true)
    (hu : holds (pc u) = true) : t = u :=
  Option.some.inj (((h t).mp ht).symm.trans ((h u).mp hu))

variable [DecidableEq T]

theorem acquire (h : Exclusive holds none pc) (hv : holds v = true) :
    Exclusive holds (some t) (Function.update pc t v) := by
  intro u
  by_cases hut : u = t
  · subst hut
    simp [hv]
  · rw [Function.update_of_ne hut, h u]
    simp [Ne.symm hut]

theorem release (h : Exclusive holds lock pc) (ht : holds (pc t) = true)
    (hv : holds v = false) : Exclusive holds none (Function.update pc t v) := by
  intro u
  by_cases hut : u = t
  · subst hut
    simp [hv]
  · rw [Function.update_of_ne hut, h u, (h t).mp ht]
    simp [Ne.symm hut]

/-- A move that does not cross the border of the critical section. -/
theorem move (h : Exclusive holds lock pc) (hv : holds v = holds (pc t)) :
    Exclusive holds lock (Function.update pc t v) := by
  intro u
  by_cases hut : u = t
  · subst hut
    rw [Function.update_self, hv, h u]
  · rw [Function.update_of_ne hut, h u]

end Exclusive

/-- A recursive mutex: its owner, and how many times more than once the owner
has locked it. -/
abbrev RecursiveMutex (T : Type*) := Option (T × ℕ)

namespace RecursiveMutex

variable {T : Type*} [DecidableEq T] {m m' : RecursiveMutex T} {t u : T}

def lock (m : RecursiveMutex T) (t : T) : Option (RecursiveMutex T) :=
  match m with
  | none => some (some (t, 0))
  | some (u, n) => if u = t then some (some (u, n + 1)) else none

def unlock (m : RecursiveMutex T) : RecursiveMutex T :=
  match m with
  | none => none
  | some (_, 0) => none
  | some (u, n + 1) => some (u, n)

def depth (m : RecursiveMutex T) (t : T) : ℕ :=
  match m with
  | none => 0
  | some (u, n) => if u = t then n + 1 else 0

theorem depth_of_lock (h : lock m t = some m') :
    depth m' t = depth m t + 1 ∧ ∀ u, u ≠ t → depth m u = 0 ∧ depth m' u = 0 := by
  unfold lock at h
  split at h
  · cases h
    refine ⟨by simp [depth], ?_⟩
    intro u hu
    simp [depth, Ne.symm hu]
  · split_ifs at h with hown
    cases h
    subst hown
    refine ⟨by simp [depth], ?_⟩
    intro u hu
    simp [depth, Ne.symm hu]

theorem depth_unlock (h : depth m t ≠ 0) :
    depth (unlock m) t + 1 = depth m t ∧ ∀ u, u ≠ t → depth (unlock m) u = depth m u := by
  unfold unlock
  split
  · exact absurd rfl h
  · rename_i w
    simp only [depth, ne_eq, ite_eq_right_iff, not_forall] at h
    obtain ⟨rfl, _⟩ := h
    refine ⟨by simp [depth], ?_⟩
    intro u hu
    simp [depth, Ne.symm hu]
  · rename_i w n
    simp only [depth, ne_eq, ite_eq_right_iff, not_forall] at h
    obtain ⟨rfl, _⟩ := h
    refine ⟨by simp [depth], ?_⟩
    intro u hu
    simp [depth, Ne.symm hu]

end RecursiveMutex

end Transition
