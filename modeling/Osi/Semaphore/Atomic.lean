import Osi.Semaphore.Eventfd

/-!
# What one system call does to the semaphore

Seen from outside, a semaphore is a counter with three atomic operations. Every
system call that `semaphore_wait`, `semaphore_try_wait` or `semaphore_post` issues
is one of these operations or leaves the counter alone, with two exceptions: the
`eventfd_read` of a `semaphore_wait` that fails on an empty counter, and the
`eventfd_write` of a post to a full one.
-/

namespace Osi

namespace Semaphore

open Transition

namespace Pc

def op : Pc → Option Op
  | idle => none
  | waitRead | waitBlocked => some .wait
  | tryGetfl | trySetfl _ | tryRead _ | tryBlocked _ | tryRestore _ _ => some .tryWait
  | postWrite | postBlocked => some .post

theorem op_eq_none {v : Pc} : v.op = none ↔ v = idle := by
  cases v <;> simp [op]

/-- The call has taken effect and only has to return. -/
def settled : Pc → Bool
  | tryRestore _ _ => true
  | _ => false

end Pc

theorem Op.entry_op (op : Op) : op.entry.op = some op := by
  cases op <;> rfl

theorem Op.entry_settled (op : Op) : op.entry.settled = false := by
  cases op <;> rfl

/-- A system call moves its own thread, inside its call or out of it. -/
theorem advance_op {T : Type*} [DecidableEq T] {s s' : State T} {t : T}
    (hs' : s.advance t = .ok s') :
    ∃ v', s'.pc = Function.update s.pc t v' ∧ (v' = .idle ∨ v'.op = (s.pc t).op) := by
  unfold State.advance at hs'
  split at hs'
  all_goals try split_ifs at hs'
  all_goals cases hs'
  all_goals refine ⟨_, rfl, ?_⟩
  all_goals simp_all [Pc.op]

theorem advance_empty {T : Type*} [DecidableEq T] {s s' : State T} {t : T}
    (hop : (s.pc t).op ≠ some .post) (hempty : s.counter = 0)
    (hs' : s.advance t = .ok s') : s'.counter = 0 := by
  cases hpc : s.pc t with
  | postWrite | postBlocked => exact absurd (by rw [hpc]; rfl) hop
  | _ =>
      simp only [State.advance, hpc, hempty, if_true] at hs'
      repeat' split at hs'
      all_goals cases hs'
      all_goals first | exact hempty | rfl

/-- What one system call of a thread does to the counter, from the point `v` of the
call `op` to the point `v'`. -/
inductive Effect (n n' : ℕ) (op : Op) (v v' : Pc) : Prop
  /-- nothing yet -/
  | inner (hn : n' = n) (hv : v.settled = false) (hv' : v'.settled = false)
      (hop : v'.op = some op)
  | wait (hn : n ≠ 0) (hn' : n' = n - 1) (hop : op = .wait) (hv : v.settled = false)
      (hv' : v' = .idle)
  | take (hn : n ≠ 0) (hn' : n' = n - 1) (hop : op = .tryWait) (hv : v.settled = false)
      (hv' : ∃ flags, v' = .tryRestore flags true)
  | fail (hn : n = 0) (hn' : n' = 0) (hop : op = .tryWait) (hv : v.settled = false)
      (hv' : ∃ flags, v' = .tryRestore flags false)
  | post (hn : n' = n + 1) (hop : op = .post) (hv : v.settled = false) (hv' : v' = .idle)
  /-- the call of `F_SETFL` that restores the flags -/
  | restore (hn : n' = n) (hop : op = .tryWait) (hv : v.settled = true) (hv' : v' = .idle)

/-- Every system call of a wait that sleeps on an empty counter, and of a post that
does not find the counter full. -/
theorem advance_effect {T : Type*} [DecidableEq T] {s s' : State T} {t : T} {op : Op}
    (hop : (s.pc t).op = some op) (hs' : s.advance t = .ok s')
    (hpatient : s.pc t = .waitRead → s.nonblocking = false ∨ s.counter ≠ 0)
    (hroom : s.counter < eventfdMax) :
    ∃ v', s'.pc = Function.update s.pc t v' ∧
      Effect s.counter s'.counter op (s.pc t) v' := by
  have hnotfull : s.counter ≠ eventfdMax := Nat.ne_of_lt hroom
  cases hpc : s.pc t with
  | idle =>
      rw [hpc] at hop
      cases hop
  | waitRead =>
      simp only [State.advance, hpc] at hs'
      rw [hpc] at hop
      cases hop
      split_ifs at hs' with hcounter hflags
      · exact absurd (hpatient hpc) (by simp [hcounter, hflags])
      · cases hs'
        exact ⟨_, rfl, .inner rfl rfl rfl rfl⟩
      · cases hs'
        exact ⟨_, rfl, .wait hcounter rfl rfl rfl rfl⟩
  | waitBlocked =>
      simp only [State.advance, hpc] at hs'
      rw [hpc] at hop
      cases hop
      split_ifs at hs' with hcounter
      cases hs'
      exact ⟨_, rfl, .wait hcounter rfl rfl rfl rfl⟩
  | tryGetfl =>
      simp only [State.advance, hpc] at hs'
      rw [hpc] at hop
      cases hop
      cases hs'
      exact ⟨_, rfl, .inner rfl rfl rfl rfl⟩
  | trySetfl flags =>
      simp only [State.advance, hpc] at hs'
      rw [hpc] at hop
      cases hop
      cases hs'
      exact ⟨_, rfl, .inner rfl rfl rfl rfl⟩
  | tryRead flags =>
      simp only [State.advance, hpc] at hs'
      rw [hpc] at hop
      cases hop
      split_ifs at hs' with hcounter hflags
      · cases hs'
        exact ⟨_, rfl, .fail hcounter hcounter rfl rfl ⟨flags, rfl⟩⟩
      · cases hs'
        exact ⟨_, rfl, .inner rfl rfl rfl rfl⟩
      · cases hs'
        exact ⟨_, rfl, .take hcounter rfl rfl rfl ⟨flags, rfl⟩⟩
  | tryBlocked flags =>
      simp only [State.advance, hpc] at hs'
      rw [hpc] at hop
      cases hop
      split_ifs at hs' with hcounter
      cases hs'
      exact ⟨_, rfl, .take hcounter rfl rfl rfl ⟨flags, rfl⟩⟩
  | tryRestore flags rc =>
      simp only [State.advance, hpc] at hs'
      rw [hpc] at hop
      cases hop
      cases hs'
      exact ⟨_, rfl, .restore rfl rfl rfl rfl⟩
  | postWrite =>
      simp only [State.advance, hpc, hnotfull, if_false] at hs'
      rw [hpc] at hop
      cases hop
      cases hs'
      exact ⟨_, rfl, .post rfl rfl rfl rfl⟩
  | postBlocked =>
      simp only [State.advance, hpc, hnotfull, if_false] at hs'
      rw [hpc] at hop
      cases hop
      cases hs'
      exact ⟨_, rfl, .post rfl rfl rfl rfl⟩

/-! ## Tries that do not sleep -/

/-- Every thread between the two `F_SETFL` has `O_NONBLOCK` set, and none sleeps there. -/
def Awake {T : Type*} (s : State T) : Prop :=
  ∀ t, (s.pc t).inWindow = true →
    s.nonblocking = true ∧ ∀ flags, s.pc t ≠ .tryBlocked flags

namespace Awake

variable {T : Type*} [DecidableEq T] {s s' : State T} {t : T} {v : Pc}

/-- A step of the thread `t` that leaves the flags alone, or that no other thread in the
window sees. -/
theorem move (h : Awake s) (hpc : s'.pc = Function.update s.pc t v)
    (hflags : s'.flags = s.flags ∨ ∀ u, u ≠ t → (s.pc u).inWindow = false)
    (hv : v.inWindow = true → s'.nonblocking = true ∧ ∀ flags, v ≠ .tryBlocked flags) :
    Awake s' := by
  intro u hu
  by_cases hut : u = t
  · subst hut
    rw [hpc, Function.update_self] at hu ⊢
    exact hv hu
  · rw [hpc, Function.update_of_ne hut] at hu ⊢
    rcases hflags with hsame | halone
    · rw [State.nonblocking, hsame]
      exact h u hu
    · rw [halone u hut] at hu
      cases hu

theorem outside (h : Awake s) (hpc : s'.pc = Function.update s.pc t v)
    (hflags : s'.flags = s.flags) (hv : v.inWindow = false) : Awake s' :=
  h.move hpc (.inl hflags) fun hin => absurd hin (by simp [hv])

/-- A system call of a thread, if no other thread is in the window while it is in
`semaphore_try_wait`. -/
theorem advance [Fintype T] {value : UInt32} (h : Awake s) (hinv : Invariant value s)
    (halone : (s.pc t).op = some .tryWait → ∀ u, u ≠ t → (s.pc u).inWindow = false)
    (hs' : s.advance t = .ok s') : Awake s' := by
  cases hpc : s.pc t with
  | trySetfl flags =>
      simp only [State.advance, hpc] at hs'
      cases hs'
      refine h.move rfl (.inr (halone (by rw [hpc]; rfl))) ?_
      intro _
      obtain rfl : flags = oRdwr := hinv.saved t flags (by rw [hpc]; rfl)
      have hset : decide ((oRdwr ||| oNonblock) &&& oNonblock ≠ 0) = true := by decide
      exact ⟨hset, by simp⟩
  | tryRead flags =>
      have hset := (h t (by rw [hpc]; rfl)).1
      simp only [State.advance, hpc, hset, if_true] at hs'
      split_ifs at hs'
      · cases hs'
        exact h.move rfl (.inl rfl) fun _ => ⟨hset, by simp⟩
      · cases hs'
        exact h.move rfl (.inl rfl) fun _ => ⟨hset, by simp⟩
  | tryBlocked flags => exact absurd hpc ((h t (by rw [hpc]; rfl)).2 flags)
  | tryRestore flags rc =>
      simp only [State.advance, hpc] at hs'
      cases hs'
      exact h.move rfl (.inr (halone (by rw [hpc]; rfl))) fun hin => by cases hin
  | _ =>
      simp only [State.advance, hpc] at hs'
      repeat' split at hs'
      all_goals cases hs'
      all_goals exact h.outside rfl rfl rfl

end Awake

end Semaphore

end Osi
