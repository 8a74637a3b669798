import Osi.FixedQueue.Interleaving.Basic

/-!
# The counters and the list

The semaphores are updated outside the lock and the list inside it, so the counters agree
with the list up to the threads that are half way through an operation. Each lemma is one
kind of step.
-/

namespace Osi

namespace SharedQueue

open Transition

namespace Pc

variable {α : Type*}

def holdsLock : Pc α → Bool
  | enqueueAppend _ _ | enqueueUnlock _ | dequeueRemove | dequeueUnlock _
  | removeContains _ | removeTryWait _ | removeRemove _ | removeUnlock _ _ => true
  | _ => false

/-- An enqueuer that took a slot and has not appended. -/
def tookSlot : Pc α → Bool
  | enqueueLock _ _ | enqueueAppend _ _ => true
  | _ => false

/-- An enqueuer that appended and has not posted. -/
def owesToken : Pc α → Bool
  | enqueueUnlock _ | enqueuePost _ => true
  | _ => false

/-- A dequeuer that took a token and has not removed. -/
def tookToken : Pc α → Bool
  | dequeueLock | dequeueRemove | removeRemove _ => true
  | _ => false

/-- A remover that removed and has not posted. -/
def owesSlot : Pc α → Bool
  | dequeueUnlock _ | dequeuePost _ | removeUnlock _ true | removePost _ => true
  | _ => false

def found : Pc α → Option α
  | removeTryWait x | removeRemove x => some x
  | _ => none

theorem holdsLock_of_found {v : Pc α} {x : α} (h : v.found = some x) :
    v.holdsLock = true := by
  cases v <;> first | rfl | cases h

end Pc

section Invariant

variable {T α : Type*} [Fintype T]

structure Invariant (slots : ℕ) (s : State T α) : Prop where
  exclusive : Exclusive Pc.holdsLock s.lock s.pc
  slots_eq : s.enqueueSem + threads Pc.tookSlot s.pc + s.list.length +
    threads Pc.owesSlot s.pc = slots
  tokens_eq : s.dequeueSem + threads Pc.tookToken s.pc + threads Pc.owesToken s.pc =
    s.list.length
  found : ∀ t x, (s.pc t).found = some x → x ∈ s.list.map Node.data
  stamps : s.list.Pairwise fun a b => a.stamp < b.stamp
  stamped : ∀ node ∈ s.list, s.appended[node.stamp]? = some node.data
  conserved : (s.appended : Multiset α) =
    (s.removed : Multiset α) + (s.list.map Node.data : List α)

namespace Invariant

variable {slots : ℕ} {s s' : State T α} {t : T} {w v : Pc α}

theorem init (capacity : UInt64) :
    Invariant (semaphoreNew capacity.toUInt32) (State.init capacity : State T α) where
  exclusive t := by simp [State.init, Pc.holdsLock]
  slots_eq := by
    rw [threads_eq_zero fun _ => rfl, threads_eq_zero fun _ => rfl]
    rfl
  tokens_eq := by
    rw [threads_eq_zero fun _ => rfl, threads_eq_zero fun _ => rfl]
    rfl
  found t x hx := absurd hx (by simp [State.init, Pc.found])
  stamps := List.Pairwise.nil
  stamped node hnode := absurd hnode (by simp [State.init])
  conserved := rfl

/-- While `t` holds the lock no other thread relies on the list. -/
theorem not_found (h : Invariant slots s) (ht : (s.pc t).holdsLock = true) {u : T}
    (hut : u ≠ t) : (s.pc u).found = none := by
  cases hfound : (s.pc u).found with
  | none => rfl
  | some x => exact absurd (h.exclusive.unique (Pc.holdsLock_of_found hfound) ht) hut

theorem list_ne_nil (h : Invariant slots s) (ht : s.pc t = .dequeueRemove) :
    s.list ≠ [] := by
  intro hnil
  have htokens := h.tokens_eq
  have hpos : 0 < threads Pc.tookToken s.pc := threads_pos (t := t) (by rw [ht]; rfl)
  rw [hnil, List.length_nil] at htokens
  omega

variable [DecidableEq T]

/-- A step of the thread `t` that leaves the list alone: what it changes in a
semaphore is what the equations count of it. -/
theorem move (h : Invariant slots s) (hlist : s'.list = s.list)
    (happended : s'.appended = s.appended) (hremoved : s'.removed = s.removed)
    (hpc : s'.pc = Function.update s.pc t v)
    (hexclusive : Exclusive Pc.holdsLock s'.lock s'.pc)
    (hslots : s'.enqueueSem + v.tookSlot.toNat + v.owesSlot.toNat =
      s.enqueueSem + (s.pc t).tookSlot.toNat + (s.pc t).owesSlot.toNat)
    (htokens : s'.dequeueSem + v.tookToken.toNat + v.owesToken.toNat =
      s.dequeueSem + (s.pc t).tookToken.toNat + (s.pc t).owesToken.toNat)
    (hfound : ∀ x, v.found = some x → x ∈ s.list.map Node.data) :
    Invariant slots s' := by
  refine ⟨hexclusive, ?_, ?_, ?_, hlist ▸ h.stamps, ?_, ?_⟩
  · have htook := threads_update Pc.tookSlot s.pc t v
    have howes := threads_update Pc.owesSlot s.pc t v
    have := h.slots_eq
    rw [hlist, hpc]
    omega
  · have htook := threads_update Pc.tookToken s.pc t v
    have howes := threads_update Pc.owesToken s.pc t v
    have := h.tokens_eq
    rw [hlist, hpc]
    omega
  · intro u x hx
    rw [hpc] at hx
    rw [hlist]
    by_cases hut : u = t
    · subst hut
      rw [Function.update_self] at hx
      exact hfound x hx
    · rw [Function.update_of_ne hut] at hx
      exact h.found u x hx
  · rw [hlist, happended]
    exact h.stamped
  · rw [hlist, happended, hremoved]
    exact h.conserved

/-- A move that touches neither lock nor semaphores. -/
theorem goto (h : Invariant slots s) (hpc : s.pc t = w)
    (hholds : v.holdsLock = w.holdsLock)
    (hslots : v.tookSlot.toNat + v.owesSlot.toNat =
      w.tookSlot.toNat + w.owesSlot.toNat)
    (htokens : v.tookToken.toNat + v.owesToken.toNat =
      w.tookToken.toNat + w.owesToken.toNat)
    (hfound : ∀ x, v.found = some x → x ∈ s.list.map Node.data) :
    Invariant slots (s.goto t v) := by
  subst hpc
  exact h.move rfl rfl rfl rfl (h.exclusive.move hholds)
    (by simp only [State.goto]; omega) (by simp only [State.goto]; omega) hfound

theorem acquire (h : Invariant slots s) (hpc : s.pc t = w)
    (hs' : s.acquire t v = .ok s') (hv : v.holdsLock = true)
    (hslots : v.tookSlot.toNat + v.owesSlot.toNat =
      w.tookSlot.toNat + w.owesSlot.toNat)
    (htokens : v.tookToken.toNat + v.owesToken.toNat =
      w.tookToken.toNat + w.owesToken.toNat)
    (hfound : v.found = none) : Invariant slots s' := by
  subst hpc
  unfold State.acquire at hs'
  split at hs'
  · rename_i hlock
    cases hs'
    have hexclusive := h.exclusive
    rw [hlock] at hexclusive
    exact h.move rfl rfl rfl rfl (hexclusive.acquire hv)
      (by simp only [State.goto]; omega) (by simp only [State.goto]; omega)
      (by simp [hfound])
  · cases hs'

theorem release (h : Invariant slots s) (hpc : s.pc t = w) (hw : w.holdsLock = true)
    (hv : v.holdsLock = false)
    (hslots : v.tookSlot.toNat + v.owesSlot.toNat =
      w.tookSlot.toNat + w.owesSlot.toNat)
    (htokens : v.tookToken.toNat + v.owesToken.toNat =
      w.tookToken.toNat + w.owesToken.toNat)
    (hfound : v.found = none) : Invariant slots (s.release t v) := by
  subst hpc
  exact h.move rfl rfl rfl rfl (h.exclusive.release hw hv)
    (by simp only [State.release, State.goto]; omega)
    (by simp only [State.release, State.goto]; omega) (by simp [hfound])

theorem takeSlot (h : Invariant slots s) {x : α} (r : Result α)
    (hpc : s.pc t = .enqueueWait x ∨ s.pc t = .enqueueTryWait x)
    (hsem : s.enqueueSem ≠ 0) :
    Invariant slots
      ({ s with enqueueSem := s.enqueueSem - 1 }.goto t (.enqueueLock x r)) := by
  rcases hpc with hpc | hpc
  all_goals
    refine h.move rfl rfl rfl rfl (h.exclusive.move (by rw [hpc]; rfl)) ?_ ?_ ?_
    · simp only [State.goto, hpc, Pc.tookSlot, Pc.owesSlot, Bool.toNat_true,
        Bool.toNat_false]
      omega
    · simp only [State.goto, hpc, Pc.tookToken, Pc.owesToken]
    · simp [Pc.found]

theorem postSlot (h : Invariant slots s) {x : α} (r : Result α)
    (hpc : s.pc t = .dequeuePost x ∨ s.pc t = .removePost x) :
    Invariant slots ({ s with enqueueSem := s.enqueueSem + 1 }.goto t (.idle r)) := by
  rcases hpc with hpc | hpc
  all_goals
    refine h.move rfl rfl rfl rfl (h.exclusive.move (by rw [hpc]; rfl)) ?_ ?_ ?_
    · simp only [State.goto, hpc, Pc.tookSlot, Pc.owesSlot, Bool.toNat_true,
        Bool.toNat_false]
    · simp only [State.goto, hpc, Pc.tookToken, Pc.owesToken]
    · simp [Pc.found]

/-- The semaphore `dequeue_sem` gives a token to a thread that goes on to remove
something. -/
theorem takeToken (h : Invariant slots s) (hpc : s.pc t = w) (hsem : s.dequeueSem ≠ 0)
    (hholds : v.holdsLock = w.holdsLock)
    (hw : w.tookSlot = false ∧ w.owesSlot = false ∧ w.tookToken = false ∧
      w.owesToken = false)
    (hv : v.tookSlot = false ∧ v.owesSlot = false ∧ v.tookToken = true ∧
      v.owesToken = false)
    (hfound : ∀ x, v.found = some x → x ∈ s.list.map Node.data) :
    Invariant slots ({ s with dequeueSem := s.dequeueSem - 1 }.goto t v) := by
  subst hpc
  refine h.move rfl rfl rfl rfl (h.exclusive.move hholds) ?_ ?_ hfound
  · simp only [State.goto, hw, hv]
  · simp only [State.goto, hw, hv, Bool.toNat_true, Bool.toNat_false]
    omega

theorem postToken (h : Invariant slots s) {r : Result α}
    (hpc : s.pc t = .enqueuePost r) :
    Invariant slots ({ s with dequeueSem := s.dequeueSem + 1 }.goto t (.idle r)) := by
  refine h.move rfl rfl rfl rfl (h.exclusive.move (by rw [hpc]; rfl)) ?_ ?_ ?_
  · simp only [State.goto, hpc, Pc.tookSlot, Pc.owesSlot]
  · simp only [State.goto, hpc, Pc.tookToken, Pc.owesToken, Bool.toNat_true,
      Bool.toNat_false]
  · simp [Pc.found]

theorem append (h : Invariant slots s) {x : α} {r : Result α}
    (ht : s.pc t = .enqueueAppend x r) :
    Invariant slots ((s.append x).goto t (.enqueueUnlock r)) := by
  have hholds : (s.pc t).holdsLock = true := by rw [ht]; rfl
  have hslots := h.slots_eq
  have htokens := h.tokens_eq
  have hupdate := fun p => threads_update p s.pc t (.enqueueUnlock r)
  have htook := hupdate Pc.tookSlot
  have howes := hupdate Pc.owesSlot
  have htook' := hupdate Pc.tookToken
  have howes' := hupdate Pc.owesToken
  rw [ht] at htook howes htook' howes'
  simp only [Pc.tookSlot, Pc.owesSlot, Pc.tookToken, Pc.owesToken, Bool.toNat_true,
    Bool.toNat_false] at htook howes htook' howes'
  refine ⟨h.exclusive.move (by rw [ht]; rfl), ?_, ?_, ?_, ?_, ?_, ?_⟩
  · simp only [State.goto, State.append, List.length_append, List.length_singleton]
    omega
  · simp only [State.goto, State.append, List.length_append, List.length_singleton]
    omega
  · intro u y hy
    by_cases hut : u = t
    · subst hut
      simp [State.goto, Pc.found] at hy
    · simp only [State.goto, Function.update_of_ne hut] at hy
      rw [State.append, h.not_found hholds hut] at hy
      cases hy
  · simp only [State.goto, State.append]
    refine List.pairwise_append.mpr ⟨h.stamps, List.pairwise_singleton _ _, ?_⟩
    intro a ha b hb
    obtain rfl : b = _ := List.mem_singleton.mp hb
    exact (List.getElem?_eq_some_iff.mp (h.stamped a ha)).1
  · intro node hnode
    simp only [State.goto, State.append, List.mem_append, List.mem_singleton] at hnode ⊢
    rcases hnode with hold | rfl
    · have hget := h.stamped node hold
      rw [List.getElem?_append_left (List.getElem?_eq_some_iff.mp hget).1]
      exact hget
    · simp
  · have hconserved := h.conserved
    simp only [State.goto, State.append, List.map_append, List.map_cons, List.map_nil]
    rw [← Multiset.coe_add, ← Multiset.coe_add, hconserved, Multiset.add_assoc]

end Invariant

end Invariant

end SharedQueue

end Osi
