import Osi.FixedQueue.Interleaving.Invariant

/-!
# The fixed queue in every run

A thread removes the oldest element that it may remove, and what it has removed is what its
call returns.
-/

namespace Osi

namespace SharedQueue

open Transition

section Invariant

variable {T α : Type*} [Fintype T]

namespace Invariant

variable {slots : ℕ} {s s' : State T α} {t : T} {w v : Pc α} [DecidableEq T] [DecidableEq α]

theorem remove (h : Invariant slots s) (hpc : s.pc t = w) {x : α}
    (hx : x ∈ s.list.map Node.data) (hholds : w.holdsLock = true)
    (hv : v.holdsLock = true)
    (ht : w.tookSlot = false ∧ w.owesSlot = false ∧ w.tookToken = true ∧
      w.owesToken = false)
    (hv' : v.tookSlot = false ∧ v.owesSlot = true ∧ v.tookToken = false ∧
      v.owesToken = false) (hfound : v.found = none)
    (hs' : s' = { s with
      list := (listRemove s.list x).1
      removed := s.removed ++ [x] }.goto t v) : Invariant slots s' := by
  subst hpc
  subst hs'
  have hslots := h.slots_eq
  have htokens := h.tokens_eq
  have hlength := length_listRemove hx
  have hupdate := fun p => threads_update p s.pc t v
  have htook := hupdate Pc.tookSlot
  have howes := hupdate Pc.owesSlot
  have htook' := hupdate Pc.tookToken
  have howes' := hupdate Pc.owesToken
  rw [ht.1, hv'.1] at htook
  rw [ht.2.1, hv'.2.1] at howes
  rw [ht.2.2.1, hv'.2.2.1] at htook'
  rw [ht.2.2.2, hv'.2.2.2] at howes'
  simp only [Bool.toNat_true, Bool.toNat_false] at htook howes htook' howes'
  refine ⟨h.exclusive.move (hv.trans hholds.symm), ?_, ?_, ?_, ?_, ?_, ?_⟩
  · simp only [State.goto]
    omega
  · simp only [State.goto]
    omega
  · intro u y hy
    by_cases hut : u = t
    · subst hut
      simp [State.goto, hfound] at hy
    · simp only [State.goto, Function.update_of_ne hut] at hy
      rw [h.not_found hholds hut] at hy
      cases hy
  · exact h.stamps.sublist (listRemove_sublist s.list x)
  · intro node hnode
    exact h.stamped node ((listRemove_sublist s.list x).mem hnode)
  · have hconserved := h.conserved
    simp only [State.goto]
    rw [map_listRemove, hconserved, ← Multiset.coe_add, Multiset.add_assoc,
      ← Multiset.coe_erase]
    congr 1
    exact (Multiset.cons_erase hx).symm

theorem advance (h : Invariant slots s) (hs' : s.advance t = .ok s') :
    Invariant slots s' := by
  have hnone : ∀ {w : Pc α}, w.found = none →
      ∀ x, w.found = some x → x ∈ s.list.map Node.data := by
    intro w hw x hx
    rw [hw] at hx
    cases hx
  cases hpc : s.pc t with
  | idle r =>
      simp only [State.advance, hpc] at hs'
      cases hs'
  | enqueueWait x =>
      simp only [State.advance, hpc] at hs'
      split_ifs at hs' with hsem
      cases hs'
      exact h.takeSlot _ (Or.inl hpc) hsem
  | enqueueTryWait x =>
      simp only [State.advance, hpc] at hs'
      split_ifs at hs' with hsem
      · cases hs'
        exact h.goto hpc rfl rfl rfl (hnone rfl)
      · cases hs'
        exact h.takeSlot _ (Or.inr hpc) hsem
  | enqueueLock x r =>
      simp only [State.advance, hpc] at hs'
      exact h.acquire hpc hs' rfl rfl rfl rfl
  | enqueueAppend x r =>
      simp only [State.advance, hpc] at hs'
      cases hs'
      exact h.append hpc
  | enqueueUnlock r =>
      simp only [State.advance, hpc] at hs'
      cases hs'
      exact h.release hpc rfl rfl rfl rfl rfl
  | enqueuePost r =>
      simp only [State.advance, hpc] at hs'
      cases hs'
      exact h.postToken hpc
  | dequeueWait =>
      simp only [State.advance, hpc] at hs'
      split_ifs at hs' with hsem
      cases hs'
      exact h.takeToken hpc hsem rfl ⟨rfl, rfl, rfl, rfl⟩ ⟨rfl, rfl, rfl, rfl⟩ (hnone rfl)
  | dequeueTryWait =>
      simp only [State.advance, hpc] at hs'
      split_ifs at hs' with hsem
      · cases hs'
        exact h.goto hpc rfl rfl rfl (hnone rfl)
      · cases hs'
        exact h.takeToken hpc hsem rfl ⟨rfl, rfl, rfl, rfl⟩ ⟨rfl, rfl, rfl, rfl⟩ (hnone rfl)
  | dequeueLock =>
      simp only [State.advance, hpc] at hs'
      exact h.acquire hpc hs' rfl rfl rfl rfl
  | dequeueRemove =>
      simp only [State.advance, hpc] at hs'
      split at hs'
      · cases hs'
      · rename_i front rest hlist
        cases hs'
        have hfront : front.data ∈ s.list.map Node.data := by simp [hlist]
        exact h.remove hpc hfront rfl rfl ⟨rfl, rfl, rfl, rfl⟩ ⟨rfl, rfl, rfl, rfl⟩ rfl rfl
  | dequeueUnlock x =>
      simp only [State.advance, hpc] at hs'
      cases hs'
      exact h.release hpc rfl rfl rfl rfl rfl
  | dequeuePost x =>
      simp only [State.advance, hpc] at hs'
      cases hs'
      exact h.postSlot _ (Or.inl hpc)
  | removeLock x =>
      simp only [State.advance, hpc] at hs'
      exact h.acquire hpc hs' rfl rfl rfl rfl
  | removeContains x =>
      simp only [State.advance, hpc] at hs'
      split_ifs at hs' with hcontains
      · cases hs'
        refine h.goto hpc rfl rfl rfl ?_
        intro y hy
        obtain rfl : x = y := Option.some.inj hy
        exact listContains_iff.mp hcontains
      · cases hs'
        exact h.goto hpc rfl rfl rfl (hnone rfl)
  | removeTryWait x =>
      simp only [State.advance, hpc] at hs'
      split_ifs at hs' with hsem
      · cases hs'
        exact h.goto hpc rfl rfl rfl (hnone rfl)
      · cases hs'
        refine h.takeToken hpc hsem rfl ⟨rfl, rfl, rfl, rfl⟩ ⟨rfl, rfl, rfl, rfl⟩ ?_
        intro y hy
        exact h.found t y (by rw [hpc]; exact hy)
  | removeRemove x =>
      simp only [State.advance, hpc] at hs'
      split at hs'
      · rename_i list hremove
        cases hs'
        refine h.remove (v := .removeUnlock x true) hpc (h.found t x (by rw [hpc]; rfl)) rfl
          rfl ⟨rfl, rfl, rfl, rfl⟩ ⟨rfl, rfl, rfl, rfl⟩ rfl ?_
        rw [hremove]
      · cases hs'
  | removeUnlock x removed =>
      simp only [State.advance, hpc] at hs'
      cases removed with
      | true =>
          cases hs'
          exact h.release hpc rfl rfl rfl rfl rfl
      | false =>
          cases hs'
          exact h.release hpc rfl rfl rfl rfl rfl
  | removePost x =>
      simp only [State.advance, hpc] at hs'
      cases hs'
      exact h.postSlot _ (Or.inr hpc)

theorem step (h : Invariant slots s) {l : Label T α} (hs' : s.step l = .ok s') :
    Invariant slots s' := by
  cases l with
  | call t op =>
      simp only [State.step] at hs'
      split at hs'
      · rename_i r hpc
        cases hs'
        have hfound : ∀ x, op.entry.found = some x → x ∈ s.list.map Node.data := by
          intro x hx
          cases op <;> cases hx
        exact h.goto hpc (by cases op <;> rfl) (by cases op <;> rfl) (by cases op <;> rfl)
          hfound
      · cases hs'
  | run t => exact h.advance hs'

end Invariant

end Invariant

/-! ## What holds in every run -/

section Runs

variable {T α : Type*} [DecidableEq T] [DecidableEq α]

/-- A step of one thread does not move the others. -/
theorem advance_pc_of_ne {s s' : State T α} {t u : T} (h : s.advance u = .ok s')
    (htu : t ≠ u) : s'.pc t = s.pc t := by
  have hgoto : ∀ (s : State T α) (v : Pc α), (s.goto u v).pc t = s.pc t := by
    intro s v
    simp only [State.goto]
    exact Function.update_of_ne htu v s.pc
  unfold State.advance State.acquire State.release at h
  split at h
  all_goals first
    | cases h; done
    | cases h; exact hgoto _ _
    | split at h <;> first
      | cases h; done
      | cases h; exact hgoto _ _

def Returning (x : α) (v : Pc α) : Prop :=
  v = .dequeueUnlock x ∨ v = .dequeuePost x ∨ v = .idle (.data (some x))

theorem Returning.step {s s' : State T α} {l : Label T α} {t : T} {x : α}
    (h : Returning x (s.pc t)) (hl : ∀ op, l ≠ .call t op) (hs' : s.step l = .ok s') :
    Returning x (s'.pc t) := by
  cases l with
  | call u op =>
      have htu : t ≠ u := by
        rintro rfl
        exact hl op rfl
      simp only [State.step] at hs'
      split at hs'
      · cases hs'
        simp only [State.goto]
        rw [Function.update_of_ne htu]
        exact h
      · cases hs'
  | run u =>
      by_cases htu : t = u
      · subst htu
        simp only [State.step] at hs'
        rcases h with hpc | hpc | hpc
        · simp only [State.advance, hpc] at hs'
          cases hs'
          exact Or.inr (Or.inl (Function.update_self t _ _))
        · simp only [State.advance, hpc] at hs'
          cases hs'
          exact Or.inr (Or.inr (Function.update_self t _ _))
        · simp only [State.advance, hpc] at hs'
          cases hs'
      · rw [advance_pc_of_ne hs' htu]
        exact h

theorem Returning.run {s s' : State T α} {ls : List (Label T α)} {t : T} {x : α}
    (h : Returning x (s.pc t)) (hrun : Run (Next State.step) s ls s')
    (hls : ∀ op, Label.call t op ∉ ls) : Returning x (s'.pc t) := by
  induction hrun with
  | nil => exact h
  | @snoc _ _ ls l _ hlast ih =>
      have hmem : ∀ op, Label.call t op ∉ ls ∧ Label.call t op ≠ l := by
        intro op
        have hop := hls op
        rw [List.mem_append, not_or, List.mem_singleton] at hop
        exact hop
      exact (ih fun op => (hmem op).1).step (fun op heq => (hmem op).2 heq.symm) hlast

end Runs

theorem semaphoreNew_toUInt32 {capacity : UInt64} (h : capacity.toNat < 2 ^ 32) :
    semaphoreNew capacity.toUInt32 = capacity.toNat := by
  rw [semaphoreNew, UInt64.toNat_toUInt32]
  exact Nat.mod_eq_of_lt h

/-- In every state that any number of threads can reach on a queue with a
capacity below 2^32: the two equations; the list is never longer than the
capacity; `list_front` is never called on an empty list and the `assert` of
`fixed_queue_try_remove_from_queue` never fails; the appended elements are the
removed ones together with the list; and every dequeue takes, and will return,
the element that was appended earliest among those in the list. -/
theorem fixed_queue_interleaving {T α : Type*} [Fintype T] [DecidableEq T]
    [DecidableEq α] (capacity : UInt64) (hcapacity : capacity.toNat < 2 ^ 32)
    (s : State T α) (h : Reachable (Next State.step) (State.init capacity) s) :
    s.enqueueSem + threads Pc.tookSlot s.pc + s.list.length +
      threads Pc.owesSlot s.pc = capacity.toNat ∧
    s.dequeueSem + threads Pc.tookToken s.pc + threads Pc.owesToken s.pc =
      s.list.length ∧
    s.list.length ≤ capacity.toNat ∧
    (∀ t, s.pc t = .dequeueRemove → s.list ≠ []) ∧
    (∀ t x, s.pc t = .removeRemove x → (listRemove s.list x).2 = true) ∧
    (s.appended : Multiset α) =
      (s.removed : Multiset α) + (s.list.map Node.data : List α) ∧
    (∀ t s₁, s.pc t = .dequeueRemove → s.step (.run t) = .ok s₁ →
      ∃ front rest, s.list = front :: rest ∧ s₁.list = rest ∧
        (∀ node ∈ rest, front.stamp < node.stamp) ∧
        (∀ node ∈ s.list, s.appended[node.stamp]? = some node.data) ∧
        ∀ ls s₂, Run (Next State.step) s₁ ls s₂ → (∀ op, .call t op ∉ ls) →
          Returning front.data (s₂.pc t)) := by
  have hinv : Invariant capacity.toNat s := by
    rw [← semaphoreNew_toUInt32 hcapacity]
    exact h.invariant (fun _ _ _ hs hstep => hs.step hstep) (Invariant.init capacity)
  have hslots := hinv.slots_eq
  refine ⟨hslots, hinv.tokens_eq, by omega, fun t => hinv.list_ne_nil, ?_,
    hinv.conserved, ?_⟩
  · intro t x ht
    exact listContains_iff.mpr (hinv.found t x (by rw [ht]; rfl))
  · intro t s₁ ht hs₁
    have hstamps := hinv.stamps
    simp only [State.step, State.advance, ht] at hs₁
    split at hs₁
    · cases hs₁
    · rename_i front rest hlist
      cases hs₁
      rw [hlist, List.pairwise_cons] at hstamps
      refine ⟨front, rest, hlist, ?_, hstamps.1, hinv.stamped, ?_⟩
      · simp only [State.goto, hlist]
        exact listRemove_front front rest
      · intro ls s₂ hrun hls
        exact Returning.run (Or.inl (Function.update_self t _ _)) hrun hls

/-- Two threads: one has appended two elements and posted the first, the other
is about to take the front. -/
def overlapping : List (Label Bool ℕ) :=
  [.call false (.enqueue 8), .run false, .run false, .run false, .run false, .run false,
    .call true .dequeue, .run true, .call false (.tryEnqueue 9), .run false, .run false,
    .run false, .run false, .run true]

theorem fixed_queue_interleaving_overlapping :
    ∃ s : State Bool ℕ, s.pc true = .dequeueRemove ∧
      s.pc false = .enqueuePost (.flag true) ∧ s.list ≠ [] ∧ s.list.length ≤ 2 := by
  have hend : ((exec (fun _ _ => true) State.step (State.init 2) overlapping).any fun s =>
      decide (s.pc true = .dequeueRemove ∧
        s.pc false = .enqueuePost (.flag true))) = true := by
    decide
  obtain ⟨s, hs, hend⟩ := (Option.any_eq_true _ _).mp hend
  obtain ⟨hdequeue, henqueue⟩ := of_decide_eq_true hend
  obtain ⟨_, _, hlength, hfront, _⟩ :=
    fixed_queue_interleaving 2 (by decide) s (Reachable.of_exec_true hs)
  exact ⟨s, hdequeue, henqueue, hfront true hdequeue, hlength⟩

end SharedQueue

end Osi
