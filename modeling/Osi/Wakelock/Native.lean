import Osi.Wakelock.Reports
import Osi.Collection.Last
import Mathlib.Algebra.Ring.Int.Defs

/-!
# The length that a native release writes

In native mode the name of the lock is written to one file to acquire it and to
another one to release it. `locked_id_len` keeps what the last `write` of an
acquire returned, -1 if it failed or if there was none, and a release passes it to
`write` as the number of bytes. So a release passes a length of the name exactly
if the last acquire before it was successful.
-/

namespace Osi

namespace Wakelock

open Transition Collection

/-- The number of bytes that `wakelock_release_native` passes to `write`, if it calls
it: a `ssize_t` that becomes a `size_t`. -/
def releaseLength (g : Globals) : Option UInt64 :=
  if g.wakeUnlockFd = false then none else some (UInt64.ofInt g.lockedIdLen)

/-- The module after `wakelock_initialize` in native mode, with both files open. -/
def nativeStart (nowMs : UInt64) : Globals :=
  reset
    { isNative := true
      wakeLockFd := true
      wakeUnlockFd := true
      lockedIdLen := -1
      stats := resetStats 0
      events := []
      clock := 0 } nowMs

def nativeAfter (nowMs : UInt64) (ls : List Label) : Globals :=
  (calls call (nativeStart nowMs) ls).1

@[simp] theorem length_wakeLockId : wakeLockId.length = 15 := rfl

def Env.Written (env : Env) : Prop :=
  -1 ≤ env.written ∧ env.written ≤ wakeLockId.length

def Label.IsAcquire : Label → Prop
  | .acquire _ => True
  | .release _ => False

/-- An acquire whose `write` does not fail. -/
def Label.Acquires : Label → Prop
  | .acquire env => env.written ≠ -1
  | .release _ => False

/-- A release after the calls `pre` passes a length of the name to `write`, the one
that the last successful acquire has written. -/
def ValidRelease (nowMs : UInt64) (pre : List Label) : Prop :=
  ∃ n env len, IsLast Label.Acquires pre n (.acquire env) ∧
    releaseLength (nativeAfter nowMs pre) = some len ∧ len.toNat ≤ wakeLockId.length ∧
    (len.toNat : ℤ) = env.written

def LastAcquires (pre : List Label) : Prop :=
  ∃ n env, IsLast Label.IsAcquire pre n (.acquire env) ∧ env.written ≠ -1

structure Native (g : Globals) : Prop where
  isNative : g.isNative = true
  wakeLockFd : g.wakeLockFd = true
  wakeUnlockFd : g.wakeUnlockFd = true

/-- The updates of the statistics leave the other variables of the module. -/
theorem updateAcquiredStats_eq (g : Globals) (status : BtStatus) (nowMs : UInt64) :
    ∃ stats events, updateAcquiredStats g status nowMs =
      { g with stats := stats, events := events, clock := nowMs } := by
  unfold updateAcquiredStats
  dsimp only
  split
  · exact ⟨_, g.events, rfl⟩
  · exact ⟨_, _, rfl⟩

theorem updateReleasedStats_eq (g : Globals) (status : BtStatus) (nowMs : UInt64) :
    ∃ stats events, updateReleasedStats g status nowMs =
      { g with stats := stats, events := events, clock := nowMs } := by
  unfold updateReleasedStats
  dsimp only
  split
  · exact ⟨_, _, rfl⟩
  · exact ⟨_, g.events, rfl⟩

theorem call_acquire_of_native {g : Globals} (h : Native g) (env : Env) :
    Native (call g (.acquire env)).1 ∧
      (call g (.acquire env)).1.lockedIdLen = env.written := by
  have hnative : (if g.isNative then acquireNative g env else (g, env.callout)) =
      ({ g with lockedIdLen := env.written }, if env.written = -1 then .fail else .success) := by
    simp [acquireNative, h.isNative, h.wakeLockFd, h.wakeUnlockFd]
  rw [call, wakelockAcquire, hnative]
  obtain ⟨stats, events, hupdate⟩ := updateAcquiredStats_eq { g with lockedIdLen := env.written }
    (if env.written = -1 then .fail else .success) env.nowMs
  dsimp only
  rw [hupdate]
  exact ⟨⟨h.isNative, h.wakeLockFd, h.wakeUnlockFd⟩, rfl⟩

theorem call_release_of_native {g : Globals} (h : Native g) (env : Env) :
    Native (call g (.release env)).1 ∧
      (call g (.release env)).1.lockedIdLen = g.lockedIdLen := by
  obtain ⟨stats, events, hupdate⟩ := updateReleasedStats_eq g
    (if g.isNative then releaseNative g else env.callout) env.nowMs
  rw [call, wakelockRelease, hupdate]
  exact ⟨⟨h.isNative, h.wakeLockFd, h.wakeUnlockFd⟩, rfl⟩

theorem nativeAfter_concat (nowMs : UInt64) (ls : List Label) (l : Label) :
    nativeAfter nowMs (ls ++ [l]) = (call (nativeAfter nowMs ls) l).1 := by
  rw [nativeAfter, calls_concat]
  rfl

theorem native_nativeAfter (nowMs : UInt64) (ls : List Label) :
    Native (nativeAfter nowMs ls) := by
  refine calls_invariant ?_ ⟨rfl, rfl, rfl⟩ ls
  intro g l h
  cases l with
  | acquire env => exact (call_acquire_of_native h env).1
  | release env => exact (call_release_of_native h env).1

theorem lockedIdLen_nativeAfter (nowMs : UInt64) (ls : List Label) :
    (∃ n env, IsLast Label.IsAcquire ls n (.acquire env) ∧
      (nativeAfter nowMs ls).lockedIdLen = env.written) ∨
    (∀ l ∈ ls, ¬ l.IsAcquire) ∧ (nativeAfter nowMs ls).lockedIdLen = -1 := by
  induction ls using List.reverseRecOn with
  | nil => exact .inr ⟨by simp, rfl⟩
  | append_singleton ls l ih =>
      have hnative := native_nativeAfter nowMs ls
      rw [nativeAfter_concat]
      cases l with
      | acquire env =>
          exact .inl ⟨ls.length, env, IsLast.concat_self trivial,
            (call_acquire_of_native hnative env).2⟩
      | release env =>
          have hnot : ¬ Label.IsAcquire (.release env) := id
          rw [(call_release_of_native hnative env).2]
          simp only [IsLast.concat_iff_of_not hnot, List.forall_mem_append,
            List.forall_mem_singleton]
          exact ih.imp_right fun ⟨hnone, hlen⟩ => ⟨⟨hnone, hnot⟩, hlen⟩

theorem releaseLength_nativeAfter (nowMs : UInt64) (ls : List Label) :
    releaseLength (nativeAfter nowMs ls) =
      some (UInt64.ofInt (nativeAfter nowMs ls).lockedIdLen) := by
  rw [releaseLength, (native_nativeAfter nowMs ls).wakeUnlockFd]
  rfl

theorem Env.Written.toNat_ofInt {env : Env} (h : env.Written) (hne : env.written ≠ -1) :
    ((UInt64.ofInt env.written).toNat : ℤ) = env.written := by
  obtain ⟨hlow, hhigh⟩ := h
  rw [length_wakeLockId] at hhigh
  have hmod : env.written % 2 ^ 64 = env.written := Int.emod_eq_of_lt (by omega) (by omega)
  have hfits : env.written.toNat < 2 ^ 64 := by omega
  rw [UInt64.ofInt, hmod, UInt64.toNat_ofNat_of_lt' hfits]
  omega

theorem LastAcquires.isLast {pre : List Label} {n : ℕ} {env : Env}
    (h : IsLast Label.IsAcquire pre n (.acquire env)) (hne : env.written ≠ -1) :
    IsLast Label.Acquires pre n (.acquire env) := by
  refine ⟨h.get, hne, ?_⟩
  intro m l hm hl hacquires
  refine h.2.2 m l hm hl ?_
  cases l with
  | acquire env' => trivial
  | release env' => exact hacquires

theorem validRelease_iff (nowMs : UInt64) {pre : List Label}
    (hwritten : ∀ env, .acquire env ∈ pre → env.Written) :
    ValidRelease nowMs pre ↔ LastAcquires pre := by
  constructor
  · rintro ⟨-, -, len, -, hlen, hle, -⟩
    rw [releaseLength_nativeAfter] at hlen
    obtain rfl := Option.some.inj hlen
    -- otherwise the length is -1 as a `size_t`
    have hne : (nativeAfter nowMs pre).lockedIdLen ≠ -1 := by
      intro hminus
      rw [hminus] at hle
      exact absurd hle (by decide)
    rcases lockedIdLen_nativeAfter nowMs pre with ⟨n, env, hlast, hwrote⟩ | ⟨-, hminus⟩
    · exact ⟨n, env, hlast, hwrote ▸ hne⟩
    · exact absurd hminus hne
  · rintro ⟨n, env, hlast, hne⟩
    have henv := hwritten env (List.mem_of_getElem? hlast.get)
    have hcast := henv.toNat_ofInt hne
    have hlen : (nativeAfter nowMs pre).lockedIdLen = env.written := by
      rcases lockedIdLen_nativeAfter nowMs pre with ⟨m, env', hlast', hlen⟩ | ⟨hnone, -⟩
      · cases (hlast.unique hlast').2
        exact hlen
      · exact absurd trivial (hnone _ (List.mem_of_getElem? hlast.get))
    refine ⟨n, env, UInt64.ofInt env.written, LastAcquires.isLast hlast hne, ?_, ?_, hcast⟩
    · rw [releaseLength_nativeAfter, hlen]
    · have hle := henv.2
      omega

/-- For every sequence of calls of `wakelock_acquire` and `wakelock_release` in native
mode, with any outcome of each `write`: every release passes a length of the name to
`write`, the one that the last successful acquire has written, exactly if there was an
acquire before every release and the last one before it was successful. -/
theorem release_length_valid_iff (nowMs : UInt64) (ls : List Label)
    (hwritten : ∀ env, .acquire env ∈ ls → env.Written) :
    (∀ pre env post, ls = pre ++ .release env :: post → ValidRelease nowMs pre) ↔
      ∀ pre env post, ls = pre ++ .release env :: post → LastAcquires pre := by
  have hiff : ∀ pre env post, ls = pre ++ .release env :: post →
      (ValidRelease nowMs pre ↔ LastAcquires pre) := by
    rintro pre env post rfl
    exact validRelease_iff nowMs fun env henv => hwritten env (List.mem_append_left _ henv)
  constructor
  · intro hvalid pre env post hsplit
    exact (hiff pre env post hsplit).mp (hvalid pre env post hsplit)
  · intro hlast pre env post hsplit
    exact (hiff pre env post hsplit).mpr (hlast pre env post hsplit)

def partialAcquire : List Label :=
  [.acquire ⟨10, .success, -1⟩, .acquire ⟨11, .success, 9⟩]

theorem release_length_valid_iff_partialAcquire : ValidRelease 5 partialAcquire := by
  have hwritten : ∀ env, .acquire env ∈ partialAcquire ++ [.release ⟨12, .success, 9⟩] →
      env.Written := by
    simp [partialAcquire, Env.Written]
  refine (release_length_valid_iff 5 _ hwritten).mpr ?_ _ ⟨12, .success, 9⟩ [] rfl
  intro pre env post hsplit
  rw [partialAcquire] at hsplit
  rcases pre with _ | ⟨l₁, _ | ⟨l₂, _ | ⟨l₃, pre⟩⟩⟩ <;> simp at hsplit
  obtain ⟨rfl, rfl, -, -⟩ := hsplit
  exact ⟨1, ⟨11, .success, 9⟩, IsLast.of_drop rfl trivial (by simp), by decide⟩

/-- The lock is acquired, and acquired again without success. -/
def failedAcquire : List Label :=
  [.acquire ⟨10, .success, 15⟩, .acquire ⟨11, .success, -1⟩]

/-- After a failed acquire a release passes 2 ^ 64 - 1, and so does a release before any
acquire. -/
theorem release_length_invalid_failedAcquire :
    (∀ env, .acquire env ∈ failedAcquire → env.Written) ∧
    ¬ ValidRelease 5 failedAcquire ∧ ¬ ValidRelease 5 [] ∧
    (releaseLength (nativeAfter 5 failedAcquire)).map UInt64.toNat = some (2 ^ 64 - 1) ∧
    (releaseLength (nativeAfter 5 [])).map UInt64.toNat = some (2 ^ 64 - 1) := by
  have hinvalid : ∀ pre, releaseLength (nativeAfter 5 pre) = some (UInt64.ofInt (-1)) →
      ¬ ValidRelease 5 pre := by
    rintro pre hminus ⟨n, env, len, -, hlen, hle, -⟩
    obtain rfl := Option.some.inj (hlen.symm.trans hminus)
    exact absurd hle (by decide)
  refine ⟨?_, hinvalid _ (by decide), hinvalid _ (by decide), by decide, by decide⟩
  simp [failedAcquire, Env.Written]

end Wakelock

end Osi
