import Mathlib.Algebra.Order.Group.Multiset
import Mathlib.Tactic.Abel

/-!
# Programs that acquire and release resources

A resource has a kind and a name, and a name is used once. The world is the multiset of
the resources that are live; a program that releases or uses another one faults, and so
does one that fails an assertion or comes to a call that waits. Which calls fail is not
determined by the program: the outcome of a call depends on its number.

`Triple may P m Q` is a small-footprint triple. A program that is run in a world with
the resources `P` among others ends only in faults that `may` allows, or it leaves the
other resources alone and resources that satisfy `Q` in the place of `P`.
-/

namespace Ownership

structure Resource (κ : Type) where
  kind : κ
  name : ℕ
  deriving DecidableEq, Repr

structure World (κ : Type) where
  live : Multiset (Resource κ)
  next : ℕ
  fresh : ∀ r ∈ live, r.name < next
  nodup : live.Nodup

/-- Why a program does not return. -/
inductive Fault
  /-- a resource is used or released that is not live -/
  | notLive
  | assertion
  /-- a call waits -/
  | blocked
  deriving DecidableEq, Repr

abbrev Program (κ : Type) := StateT (World κ) (Except Fault)

variable {κ : Type} {α β : Type}

namespace World

/-- Nothing is live. -/
def empty (κ : Type) : World κ where
  live := 0
  next := 0
  fresh _ h := absurd h (Multiset.notMem_zero _)
  nodup := Multiset.nodup_zero

def tick (w : World κ) : World κ where
  live := w.live
  next := w.next + 1
  fresh r h := Nat.lt_succ_of_lt (w.fresh r h)
  nodup := w.nodup

def add (w : World κ) (kind : κ) : World κ where
  live := ⟨kind, w.next⟩ ::ₘ w.live
  next := w.next + 1
  fresh r h := by
    rcases Multiset.mem_cons.mp h with rfl | h
    · exact Nat.lt_succ_self _
    · exact Nat.lt_succ_of_lt (w.fresh r h)
  nodup := Multiset.nodup_cons.mpr ⟨fun h => Nat.lt_irrefl _ (w.fresh _ h), w.nodup⟩

/-- Without a resource. -/
def remove [DecidableEq κ] (w : World κ) (r : Resource κ) : World κ where
  live := w.live.erase r
  next := w.next
  fresh s h := w.fresh s (Multiset.mem_of_mem_erase h)
  nodup := w.nodup.erase r

end World

def acquire (kind : κ) : Program κ (Resource κ) := fun w =>
  .ok (⟨kind, w.next⟩, w.add kind)

def outcome (succeeds : ℕ → Bool) : Program κ Bool := fun w => .ok (succeeds w.next, w.tick)

def attempt (succeeds : ℕ → Bool) (kind : κ) : Program κ (Option (Resource κ)) := fun w =>
  if succeeds w.next then .ok (some ⟨kind, w.next⟩, w.add kind) else .ok (none, w.tick)

def fail (e : Fault) : Program κ α := fun _ => .error e

section

variable [DecidableEq κ]

def release (r : Resource κ) : Program κ Unit := fun w =>
  if r ∈ w.live then .ok ((), w.remove r) else .error .notLive

def use (r : Resource κ) : Program κ Unit := fun w =>
  if r ∈ w.live then .ok ((), w) else .error .notLive

end

/-- What the end of a program has to be, when the resources `L` are not its own. -/
def Meets (may : Fault → Prop) (Q : α → Multiset (Resource κ) → Prop) (L : Multiset (Resource κ)) :
    Except Fault (α × World κ) → Prop
  | .ok (a, w') => ∃ F, Q a F ∧ w'.live = F + L
  | .error e => may e

def Triple (may : Fault → Prop) (P : Multiset (Resource κ)) (m : Program κ α)
    (Q : α → Multiset (Resource κ) → Prop) : Prop :=
  ∀ (w : World κ) (L : Multiset (Resource κ)), w.live = P + L → Meets may Q L (m w)

section

variable {may : Fault → Prop} {L L' : Multiset (Resource κ)}
  {Q Q' : α → Multiset (Resource κ) → Prop} {R : β → Multiset (Resource κ) → Prop}

theorem Meets.bind {r : Except Fault (α × World κ)} {k : α → Program κ β}
    (h : Meets may Q L r)
    (hk : ∀ a F w, Q a F → w.live = F + L → Meets may R L (k a w)) :
    Meets may R L (r.bind fun p => k p.1 p.2) := by
  cases r with
  | error e => exact h
  | ok p =>
      obtain ⟨F, hQ, hw⟩ := h
      exact hk p.1 F p.2 hQ hw

theorem Meets.mono {r : Except Fault (α × World κ)} (h : Meets may Q L r)
    (hQ : ∀ a F, Q a F → ∃ F', Q' a F' ∧ F + L = F' + L') : Meets may Q' L' r := by
  cases r with
  | error e => exact h
  | ok p =>
      obtain ⟨F, hF, hw⟩ := h
      obtain ⟨F', hF', heq⟩ := hQ p.1 F hF
      exact ⟨F', hF', hw.trans heq⟩

end

namespace Triple

variable {may : Fault → Prop} {P P' L : Multiset (Resource κ)} {m : Program κ α}
  {k : α → Program κ β} {Q Q' : α → Multiset (Resource κ) → Prop}
  {R : β → Multiset (Resource κ) → Prop}

/-! ## Rules for every program -/

theorem pure {a : α} (h : Q a P) : Triple may P (pure a : Program κ α) Q :=
  fun _ _ hw => ⟨P, h, hw⟩

theorem bind (hm : Triple may P m Q) (hk : ∀ a F, Q a F → Triple may F (k a) R) :
    Triple may P (m >>= k) R :=
  fun w L hw => (hm w L hw).bind fun a F w' hQ hw' => hk a F hQ w' L hw'

theorem mono (hm : Triple may P m Q) (h : ∀ a F, Q a F → Q' a F) : Triple may P m Q' :=
  fun w L hw => (hm w L hw).mono fun a F hQ => ⟨F, h a F hQ, rfl⟩

theorem frame (hm : Triple may P m Q) (L : Multiset (Resource κ)) :
    Triple may (P + L) m fun a F => ∃ F', Q a F' ∧ F = F' + L := by
  intro w L' hw
  refine (hm w (L + L') (hw.trans (add_assoc _ _ _))).mono fun a F hQ => ?_
  exact ⟨F + L, ⟨F, hQ, rfl⟩, (add_assoc _ _ _).symm⟩

theorem congr (hP : P' = P) (hm : Triple may P m Q) : Triple may P' m Q := hP ▸ hm

/-! ## Rules for the calls -/

theorem acquire (kind : κ) :
    Triple may 0 (Ownership.acquire kind) fun r F => F = {r} ∧ r.kind = kind := by
  intro w L hw
  refine ⟨_, ⟨rfl, rfl⟩, ?_⟩
  rw [zero_add] at hw
  rw [← hw, Multiset.singleton_add]
  rfl

theorem outcome (succeeds : ℕ → Bool) :
    Triple may (0 : Multiset (Resource κ)) (Ownership.outcome succeeds) fun b F =>
      F = 0 ∧ ∃ n, succeeds n = b :=
  fun w _ hw => ⟨0, ⟨rfl, w.next, rfl⟩, hw⟩

def owned? (own : α → Multiset (Resource κ)) (o : Option α) : Multiset (Resource κ) :=
  o.elim 0 own

theorem attempt (succeeds : ℕ → Bool) (kind : κ) :
    Triple may 0 (Ownership.attempt succeeds kind) fun r F => F = owned? (fun r => {r}) r := by
  intro w L hw
  rw [zero_add] at hw
  by_cases h : succeeds w.next
  · simp only [Ownership.attempt, h, if_true]
    refine ⟨_, rfl, ?_⟩
    rw [← hw, owned?, Option.elim_some, Multiset.singleton_add]
    rfl
  · simp only [Ownership.attempt, h]
    exact ⟨_, rfl, by rw [← hw, owned?, Option.elim_none, zero_add]; rfl⟩

theorem fail {e : Fault} (h : may e) : Triple may P (Ownership.fail e : Program κ α) Q :=
  fun _ _ _ => h

variable [DecidableEq κ]

theorem release (r : Resource κ) :
    Triple may {r} (Ownership.release r) fun _ F => F = 0 := by
  intro w L hw
  rw [Multiset.singleton_add] at hw
  have hmem : r ∈ w.live := hw ▸ Multiset.mem_cons_self r L
  simp only [Ownership.release, hmem, if_true]
  refine ⟨0, rfl, ?_⟩
  rw [zero_add]
  exact (congrArg (Multiset.erase · r) hw).trans (Multiset.erase_cons_head r L)

theorem use {r : Resource κ} (h : r ∈ P) :
    Triple may P (Ownership.use r) fun _ F => F = P := by
  intro w L hw
  have hmem : r ∈ w.live := hw ▸ Multiset.mem_add.mpr (.inl h)
  simp only [Ownership.use, hmem, if_true]
  exact ⟨P, rfl, hw⟩

theorem access {r : Resource κ} {k : Unit → Program κ β} (h : r ∈ P)
    (hk : Triple may P (k ()) R) : Triple may P (Ownership.use r >>= k) R := by
  refine (use h).bind ?_
  rintro _ _ rfl
  exact hk

end Triple

end Ownership
