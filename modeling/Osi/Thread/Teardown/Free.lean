import Osi.Thread.Teardown.Returns

/-!
# The return of `thread_free`

`thread_free` waits for the end of `run_thread`, and returns exactly if that comes.
-/

namespace Osi

namespace Thread

open Transition
open SharedQueue (Pc)

variable {T α : Type*} [DecidableEq T] [DecidableEq α] [Fintype T]

namespace Lifetime

variable {s s' : State T α} {l : Label T α}

theorem ready_step (hinv : Invariant s) (hready : Ready s.thread) (h : Effect s l s') :
    Ready s'.thread := by
  cases h with
  | thread _ _ hstep => exact hready.step hinv.thread hstep
  | stop _ =>
      exact ⟨hready.nodup, hready.token, hready.served, hready.dequeuing, hready.draining⟩
  | _ => exact hready

theorem ready_of_reachable {capacity : UInt64}
    (h : Reachable (Guarded Contract (Next State.step)) (start capacity) s) :
    Invariant s ∧ Ready s.thread := by
  refine h.invariant (I := fun s => Invariant s ∧ Ready s.thread) ?_
    ⟨invariant_start capacity, ready_threadNewSized capacity⟩
  rintro s l s' ⟨hinv, hready⟩ ⟨hcontract, hnext⟩
  have heffect := effect_of_step hnext
  exact ⟨hinv.step hcontract heffect, ready_step hinv hready heffect⟩

/-- While the owner waits in `pthread_join` the thread goes on. -/
theorem reachable_of_alone (hinv : Invariant s)
    (howner : s.owner = .readJoined true ∨ s.owner = .joining true) (hitem : s.inItem = false)
    {t : Thread.State T α} (h : Reachable Alone s.thread t) :
    Reachable (Guarded Contract (Next State.step)) s { s with thread := t } := by
  have hworker : s.worker = .running := by
    have hmeets := hinv.meets
    rcases howner with howner | howner <;> rw [howner] at hmeets <;> exact hmeets
  have halive : ∀ (t : Thread.State T α) l, ∀ o ∈ uses t l, s.alive o = true := by
    intro t l o ho
    obtain ⟨hstart, hsem⟩ := ne_start_of_uses ho
    rw [hinv.alive]
    rcases howner with howner | howner <;> rw [howner] <;> cases o <;>
      first | rfl | exact absurd rfl hstart | exact absurd rfl hsem
  obtain ⟨ls, hrun⟩ := h
  induction hrun with
  | nil => exact .refl s
  | @snoc t₁ t₂ ls l hrun hlast ih =>
      obtain ⟨hl, hnext⟩ := hlast
      have hnext : t₁.step l = .ok t₂ := hnext
      refine ih.snoc (l := .thread l) ⟨?_, ?_⟩
      · cases l <;> first | exact trivial | cases hl
      · have hstep : ({ s with thread := t₁ } : State T α).step (.thread l) =
            .ok { s with thread := t₂ } := by
          simp only [State.step, State.busy, hworker, hitem, State.threadStep, hnext]
          simpa [State.access] using halive t₁ l
        exact hstep

/-- A thread that waits for its own queue is waited for without end. -/
theorem waiting_effect (hinv : Invariant s) (hcontract : Contract s l)
    (hfreeing : s.owner.freeing = true) (hwaiting : Waiting s.thread) (h : Effect s l s') :
    Waiting s'.thread := by
  cases h with
  | thread _ _ hstep =>
      have hsame := waiting_step (hinv.idle hfreeing) (posting_of_waiting hinv.thread hwaiting)
        hwaiting (no_call_of_freeing hcontract hfreeing).1 hstep
      unfold Waiting
      rw [hsame]
      exact hwaiting
  | stop _ => exact hwaiting
  | _ => exact hwaiting

theorem reaches_join (hinv : Invariant s) (hfreeing : s.owner.freeing = true)
    (hself : s.selfJoined = false) (hrunning : s.thread.phase.hasReturned = false) :
    ∃ s', Reachable (Guarded Contract (Next State.step)) s s' ∧
      (s'.owner = .readJoined true ∨ s'.owner = .joining true) ∧ s'.inItem = s.inItem ∧
      (Waiting s'.thread → Waiting s.thread) := by
  have hpast : s.owner.isPastJoin = false := by
    by_contra hpast
    rw [hinv.returned_of_past hself (Bool.eq_true_of_not_eq_false hpast)] at hrunning
    cases hrunning
  have hstay : s.owner = .readJoined true ∨ s.owner = .joining true →
      ∃ s', Reachable (Guarded Contract (Next State.step)) s s' ∧
        (s'.owner = .readJoined true ∨ s'.owner = .joining true) ∧ s'.inItem = s.inItem ∧
        (Waiting s'.thread → Waiting s.thread) := fun howner => ⟨s, .refl s, howner, rfl, id⟩
  cases howner : s.owner with
  | stop =>
      have hstep : s.step .owner = .ok { s with
          thread := { s.thread with stopped := true }
          owner := .readJoined true } := by
        simp [State.step, State.ownerStep, State.access, howner, hinv.alive, Owner.alive]
      have hcontract : Contract s .owner := trivial
      exact ⟨_, (Reachable.refl s).snoc ⟨hcontract, hstep⟩, .inl rfl, rfl, id⟩
  | readJoined freeing =>
      cases freeing with
      | false =>
          rw [howner] at hfreeing
          cases hfreeing
      | true => exact hstay (.inl howner)
  | joining freeing =>
      cases freeing with
      | false =>
          rw [howner] at hfreeing
          cases hfreeing
      | true => exact hstay (.inr howner)
  | freeQueue error => rw [howner] at hfreeing hpast; cases error <;> contradiction
  | freeReactor error => rw [howner] at hfreeing hpast; cases error <;> contradiction
  | freeThread error => rw [howner] at hfreeing hpast; cases error <;> contradiction
  | returned error => rw [howner] at hfreeing hpast; cases error <;> contradiction
  | _ =>
      rw [howner] at hfreeing
      cases hfreeing

/-- `thread_free`, called from outside of the thread, can return exactly if the thread does
not wait for a slot in its own full queue. -/
theorem thread_free_returns_iff {capacity : UInt64}
    (h : Reachable (Guarded Contract (Next State.step)) (start capacity) s)
    (hfreeing : s.owner.freeing = true) (hself : s.selfJoined = false)
    (hitem : s.inItem = false) :
    (∃ s', Reachable (Guarded Contract (Next State.step)) s s' ∧ s'.owner = .returned false) ↔
      ¬ Waiting s.thread := by
  have hinv := invariant_of_reachable h
  have hposting : ∀ {s : State T α}, Invariant s → Waiting s.thread →
      s.thread.phase.hasReturned = false := by
    intro s hinv hwaiting
    obtain ⟨item, caller, hphase⟩ := posting_of_waiting hinv.thread hwaiting
    rw [hphase]
    rfl
  constructor
  · rintro ⟨s', hreach, howner⟩ hwaiting
    have hend : Invariant s' ∧ s'.owner.freeing = true ∧
        (s'.selfJoined = false ∧ s'.inItem = false) ∧ Waiting s'.thread := by
      refine hreach.invariant (I := fun s => Invariant s ∧ s.owner.freeing = true ∧
        (s.selfJoined = false ∧ s.inItem = false) ∧ Waiting s.thread) ?_
        ⟨hinv, hfreeing, ⟨hself, hitem⟩, hwaiting⟩
      rintro s l s' ⟨hinv, hfreeing, hsecure, hwaiting⟩ ⟨hcontract, hnext⟩
      have heffect := effect_of_step hnext
      have hinv' := hinv.step hcontract heffect
      have hwaiting' := waiting_effect hinv hcontract hfreeing hwaiting heffect
      obtain ⟨hfreeing', hsecure'⟩ := secure_step hfreeing (.inr hsecure) heffect
      rcases hsecure' with hreturned | hsecure'
      · rw [hposting hinv' hwaiting'] at hreturned
        cases hreturned
      · exact ⟨hinv', hfreeing', hsecure', hwaiting'⟩
    obtain ⟨hinv', -, ⟨hself', -⟩, hwaiting'⟩ := hend
    have hreturned := hinv'.returned_of_past hself' (by rw [howner]; rfl)
    rw [hposting hinv' hwaiting'] at hreturned
    cases hreturned
  · intro hfree
    by_cases hreturned : s.thread.phase.hasReturned = true
    · obtain ⟨s', hreach, -, howner, -⟩ := free_ends hinv hfreeing (.inl hreturned)
      exact ⟨s', hreach, howner⟩
    · obtain ⟨s₁, hreach₁, howner₁, hitem₁, hfree₁⟩ :=
        reaches_join hinv hfreeing hself (Bool.eq_false_iff.mpr hreturned)
      obtain ⟨hinv₁, hready₁⟩ := ready_of_reachable (h.trans hreach₁)
      have hfreeing₁ : s₁.owner.freeing = true := by
        rcases howner₁ with howner₁ | howner₁ <;> rw [howner₁] <;> rfl
      have hstopped₁ : s₁.thread.stopped = true := by
        refine hinv₁.stopped hfreeing₁ ?_
        rcases howner₁ with howner₁ | howner₁ <;> simp [howner₁]
      obtain ⟨t, halone, hend⟩ := run_thread_returns
        ⟨hinv₁.thread, hready₁, hinv₁.idle hfreeing₁, hstopped₁⟩ fun hwaiting =>
          hfree (hfree₁ hwaiting)
      have hreach₂ := hreach₁.trans
        (reachable_of_alone hinv₁ howner₁ (hitem₁.trans hitem) halone)
      obtain ⟨s', hreach', -, howner', -⟩ :=
        free_ends (invariant_of_reachable (h.trans hreach₂)) hfreeing₁ (.inl hend)
      exact ⟨s', hreach₂.trans hreach', howner'⟩

def itemPostsTwice : List (Label Unit ℕ) :=
  List.flatten [[.create true, .setName true, .worker, .worker, .owner, .owner, .owner,
    .thread (.post () 1)], .replicate 5 (.thread (.client ())),
    [.thread (.wait [.workQueue])], .replicate 7 (.thread .run), [.thread (.itemPosts 2)],
    .replicate 6 (.thread .run), [.thread (.itemPosts 3), .free false]]

theorem thread_free_returns_iff_itemPostsTwice :
    ∃ s : State Unit ℕ, s.owner = .stop ∧
      ¬ ∃ s', Reachable (Guarded Contract (Next State.step)) s s' ∧
        s'.owner = .returned false := by
  have hend : ((exec (fun s l => decide (Contract s l)) State.step (start 1)
      itemPostsTwice).any fun s =>
      decide (s.owner = .stop ∧ s.selfJoined = false ∧ s.inItem = false ∧
        s.thread.workQueue.pc none = .enqueueWait 3 ∧ s.thread.workQueue.enqueueSem = 0)) =
      true := by
    decide +kernel
  obtain ⟨s, hs, hend⟩ := (Option.any_eq_true _ _).mp hend
  obtain ⟨howner, hself, hitem, hpc, hzero⟩ := of_decide_eq_true hend
  refine ⟨s, howner, fun hreturns => ?_⟩
  exact (thread_free_returns_iff (Reachable.of_exec hs) (by rw [howner]; rfl) hself hitem).mp
    hreturns ⟨⟨3, hpc⟩, hzero⟩

end Lifetime

end Thread

end Osi
