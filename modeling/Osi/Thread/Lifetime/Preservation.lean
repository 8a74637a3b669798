import Osi.Thread.Lifetime.Invariant

/-!
# The invariant is kept

One lemma for each kind of step: the constructor, the wait, the join and the releases.
-/

namespace Osi

namespace Thread

namespace Lifetime

open Transition

variable {T α : Type*} [DecidableEq T] [DecidableEq α] {s s' : State T α} {l : Label T α}
  [Fintype T]

omit [DecidableEq T] [DecidableEq α] in
/-- While the new thread is waited for it may change all that the owner knows of it. -/
theorem Invariant.starting (hinv : Invariant s) (howner : s.owner = .create ∨ s.owner = .wait)
    (howner' : s'.owner = .wait) (hthread : s'.thread = s.thread) (halive : s'.alive = s.alive)
    (hjoin : s'.isJoined = s.isJoined ∧ s'.selfJoined = s.selfJoined)
    (hcount : s'.startCount = if s'.worker.hasPosted then 1 else 0)
    (herror : s'.error = s'.worker.hasError) : Invariant s' := by
  have hjoining : ∀ freeing, s.owner ≠ .joining freeing := by
    intro freeing
    rcases howner with howner | howner <;> simp [howner]
  refine ⟨hthread ▸ hinv.thread, fun o => ?_, ?_, herror, ?_, ?_, ?_, ?_, ?_, ?_, ?_⟩
  · rw [halive, hinv.alive, howner']
    rcases howner with howner | howner
    · rw [howner]
      rfl
    · rw [howner]
  · rw [howner']
    exact hcount
  · intro h
    rw [howner'] at h
    cases h
  · intro h
    rw [howner'] at h
    cases h
  · intro h
    simp [State.busy, howner', Owner.inCall] at h
  · rw [hjoin.1, hjoin.2, hthread]
    exact fun hclear hset _ => hinv.joined hclear hset hjoining
  · intro h
    rw [howner'] at h
    cases h
  · rw [hjoin.1, hjoin.2]
    exact hinv.selfJoined
  · intro freeing h
    rw [howner'] at h
    cases h

omit [DecidableEq T] [DecidableEq α] in
theorem Invariant.goto (hinv : Invariant s) {owner : Owner} {alive : Object → Bool} {count : ℕ}
    {freed : List α} (halive : ∀ o, alive o = owner.alive o)
    (hmeets : owner.Meets s.worker count)
    (hfreeing : owner.freeing = true → s.owner.freeing = true ∧ s.owner ≠ .stop)
    (hcall : owner.inCall = true → s.owner.inCall = true)
    (hpast : owner.isPastJoin = true → s.isJoined = true)
    (hjoined : s.selfJoined = false → s.isJoined = true → s.thread.phase.hasReturned = true)
    (hjoining : ∀ freeing, owner ≠ .joining freeing) :
    Invariant { s with owner := owner, alive := alive, startCount := count, freed := freed } where
  thread := hinv.thread
  alive := halive
  meets := hmeets
  error := hinv.error
  idle h := hinv.idle (hfreeing h).1
  stopped h _ := hinv.stopped (hfreeing h).1 (hfreeing h).2
  item h := by
    refine hinv.item ?_
    simp only [State.busy, Bool.and_eq_true] at h ⊢
    exact ⟨h.1, hcall h.2⟩
  joined hclear hset _ := hjoined hclear hset
  past := hpast
  selfJoined := hinv.selfJoined
  joining freeing h := absurd h (hjoining freeing)

omit [DecidableEq T] [DecidableEq α] in
/-- The owner goes on in `thread_new_sized`. -/
theorem Invariant.construct (hinv : Invariant s) {owner : Owner} {alive : Object → Bool}
    {count : ℕ} {freed : List α} (howner : ∀ freeing, s.owner ≠ .joining freeing)
    (hout : owner.freeing = false ∧ owner.inCall = false ∧ owner.isPastJoin = false)
    (halive : ∀ o, alive o = owner.alive o) (hmeets : owner.Meets s.worker count) :
    Invariant { s with
      owner := owner, alive := alive, startCount := count, freed := freed } := by
  obtain ⟨hfreeing, hcall, hpast⟩ := hout
  refine hinv.goto halive hmeets ?_ ?_ ?_ (fun hclear hset => hinv.joined hclear hset howner) ?_
  · intro h
    rw [hfreeing] at h
    cases h
  · intro h
    rw [hcall] at h
    cases h
  · intro h
    rw [hpast] at h
    cases h
  · rintro freeing rfl
    cases hcall

omit [DecidableEq T] [DecidableEq α] in
theorem Invariant.leaveJoin (hinv : Invariant s) {freeing : Bool}
    (howner : s.owner = .readJoined freeing ∨ s.owner = .joining freeing)
    (hset : s.isJoined = true)
    (hreturned : s.selfJoined = false → s.thread.phase.hasReturned = true) :
    Invariant { s with owner := .afterJoin freeing } := by
  have hmeets : s.worker = .running := by
    have hmeets := hinv.meets
    rcases howner with howner | howner <;> rw [howner] at hmeets <;> exact hmeets
  refine hinv.goto (fun o => ?_) ?_ ?_ ?_ (fun _ => hset) (fun hclear _ => hreturned hclear) ?_
  · rw [hinv.alive]
    rcases howner with howner | howner <;> rw [howner] <;> cases freeing <;> cases o <;> rfl
  · cases freeing <;> exact hmeets
  · intro h
    cases freeing with
    | false => cases h
    | true => rcases howner with howner | howner <;> simp [howner, Owner.freeing]
  · intro _
    rcases howner with howner | howner <;> rw [howner] <;> rfl
  · cases freeing <;> simp [Owner.afterJoin]

omit [DecidableEq T] [DecidableEq α] in
/-- The owner goes on with the release, in `thread_new_sized` or in `thread_free`. -/
theorem Invariant.releasing (hinv : Invariant s) {error : Bool} {owner : Owner}
    {alive : Object → Bool} {freed : List α}
    (howner : s.owner = .freeQueue error ∧ owner = .freeReactor error ∨
      s.owner = .freeReactor error ∧ owner = .freeThread error ∨
      s.owner = .freeThread error ∧ owner = .returned error)
    (halive : ∀ o, alive o = owner.alive o) :
    Invariant { s with owner := owner, alive := alive, freed := freed } := by
  have hmeets := hinv.meets
  have hjoining : ∀ freeing, s.owner ≠ .joining freeing := by
    intro freeing
    rcases howner with ⟨h, -⟩ | ⟨h, -⟩ | ⟨h, -⟩ <;> simp [h]
  cases error with
  | true =>
      refine hinv.construct hjoining ?_ halive ?_
      · rcases howner with ⟨-, rfl⟩ | ⟨-, rfl⟩ | ⟨-, rfl⟩ <;> exact ⟨rfl, rfl, rfl⟩
      · rcases howner with ⟨h, rfl⟩ | ⟨h, rfl⟩ | ⟨h, rfl⟩ <;> rw [h] at hmeets <;> exact hmeets
  | false =>
      have hpast : s.isJoined = true := by
        refine hinv.past ?_
        rcases howner with ⟨h, -⟩ | ⟨h, -⟩ | ⟨h, -⟩ <;> rw [h] <;> rfl
      refine hinv.goto halive ?_ ?_ ?_ (fun _ => hpast)
        (fun hclear hset => hinv.joined hclear hset hjoining) ?_
      · rcases howner with ⟨h, rfl⟩ | ⟨h, rfl⟩ | ⟨h, rfl⟩ <;> rw [h] at hmeets <;> exact hmeets
      · intro _
        rcases howner with ⟨h, -⟩ | ⟨h, -⟩ | ⟨h, -⟩ <;> simp [h, Owner.freeing]
      · intro _
        rcases howner with ⟨h, -⟩ | ⟨h, -⟩ | ⟨h, -⟩ <;> rw [h] <;> rfl
      · intro freeing
        rcases howner with ⟨-, rfl⟩ | ⟨-, rfl⟩ | ⟨-, rfl⟩ <;> simp

/-- Once `thread_new_sized` has returned the thread, the thread runs. -/
theorem Owner.Meets.running {worker : Worker} {count : ℕ} {owner : Owner}
    (h : owner.Meets worker count) (howner : owner.inCall = true ∨ owner = .holding) :
    worker = .running := by
  rcases howner with howner | rfl
  · cases owner with
    | freeQueue error => cases error <;> first | exact h | cases howner
    | freeReactor error => cases error <;> first | exact h | cases howner
    | freeThread error => cases error <;> first | exact h | cases howner
    | stop => exact h
    | readJoined freeing => exact h
    | joining freeing => exact h
    | _ => cases howner
  · exact h

omit [DecidableEq T] [DecidableEq α] [Fintype T] in
theorem no_call_of_freeing {l : Thread.Label T α} (hcontract : Contract s (.thread l))
    (hfreeing : s.owner.freeing = true) :
    (∀ u item, l ≠ .post u item) ∧ ∀ u, l ≠ .stop u := by
  have hclosed := Owner.isOpen_of_freeing hfreeing
  constructor
  · rintro u item rfl
    have hopen : s.owner.isOpen = true := hcontract
    rw [hclosed] at hopen
    cases hopen
  · rintro u rfl
    have hopen : s.owner.isOpen = true := hcontract
    rw [hclosed] at hopen
    cases hopen

theorem Invariant.step (hinv : Invariant s) (hcontract : Contract s l) (h : Effect s l s') :
    Invariant s' := by
  have hmeets := hinv.meets
  have halive := hinv.alive
  cases h with
  | create created howner =>
      rw [howner] at hmeets
      refine hinv.starting (.inl howner) rfl rfl rfl ⟨rfl, rfl⟩ ?_ ?_
      · cases created <;> exact hmeets.2
      · simp only [hinv.error, hmeets.1]
        cases created <;> rfl
  | setName named hworker =>
      obtain ⟨howner, hcount⟩ := hmeets.wait (by rw [hworker]; rfl) (by simp [hworker])
      refine hinv.starting (.inr howner) howner rfl rfl ⟨rfl, rfl⟩ ?_ ?_
      · cases named <;> exact hcount
      · simp only [hinv.error, hworker]
        cases named <;> rfl
  | reportError hworker =>
      obtain ⟨howner, hcount⟩ := hmeets.wait (by rw [hworker]; rfl) (by simp [hworker])
      exact hinv.starting (.inr howner) howner rfl rfl ⟨rfl, rfl⟩ hcount rfl
  | setTid hworker =>
      obtain ⟨howner, hcount⟩ := hmeets.wait (by rw [hworker]; rfl) (by simp [hworker])
      refine hinv.starting (.inr howner) howner rfl rfl ⟨rfl, rfl⟩ hcount ?_
      simp only [hinv.error, hworker]
      rfl
  | post hworker =>
      obtain ⟨howner, hcount⟩ := hmeets.wait
        (by rcases hworker with ⟨hworker, -⟩ | ⟨hworker, -⟩ <;> rw [hworker] <;> rfl)
        (by rcases hworker with ⟨hworker, -⟩ | ⟨hworker, -⟩ <;> simp [hworker])
      refine hinv.starting (.inr howner) howner rfl rfl ⟨rfl, rfl⟩ ?_ ?_
      · simp only [hcount]
        rcases hworker with ⟨-, rfl⟩ | ⟨-, rfl⟩ <;> rfl
      · simp only [hinv.error]
        rcases hworker with ⟨hworker, rfl⟩ | ⟨hworker, rfl⟩ <;> rw [hworker] <;> rfl
  | @thread l thread hworker hbusy hstep =>
      have hkeeps := step_keeps hstep
      refine ⟨hinv.thread.step (Thread.effect_of_step hstep), halive, hmeets, hinv.error, ?_, ?_,
        ?_, ?_, hinv.past, hinv.selfJoined, hinv.joining⟩
      · intro hfreeing
        exact idle_of_step hstep (hinv.idle hfreeing) (no_call_of_freeing hcontract hfreeing).1
      · exact fun hfreeing hstop => hkeeps.1 (hinv.stopped hfreeing hstop)
      · intro h
        simp only [hkeeps.2 (hinv.item h) (hbusy h)]
        exact hinv.item h
      · exact fun hclear hset howner =>
          Join.hasReturned_of_step hstep (hinv.joined hclear hset howner)
  | join inItem howner hitem =>
      rw [howner] at hmeets
      refine ⟨hinv.thread, fun o => ?_, hmeets, hinv.error, ?_, ?_, ?_, ?_, ?_, hinv.selfJoined,
        ?_⟩
      · rw [halive, howner]
        rfl
      · intro h
        cases h
      · intro h
        cases h
      · intro h
        simp only [State.busy, Bool.and_eq_true] at h
        exact hitem h.1
      · exact fun hclear hset _ => hinv.joined hclear hset (by simp [howner])
      · intro h
        cases h
      · intro freeing h
        cases h
  | free inItem howner hitem =>
      rw [howner] at hmeets
      refine ⟨hinv.thread, fun o => ?_, hmeets, hinv.error, fun _ => hcontract, ?_, ?_, ?_, ?_,
        hinv.selfJoined, ?_⟩
      · rw [halive, howner]
        rfl
      · exact fun _ h => absurd rfl h
      · intro h
        simp only [State.busy, Bool.and_eq_true] at h
        exact hitem h.1
      · exact fun hclear hset _ => hinv.joined hclear hset (by simp [howner])
      · intro h
        cases h
      · intro freeing h
        cases h
  | wait howner hcount =>
      rw [howner] at hmeets
      change s.startCount = _ at hmeets
      refine hinv.construct (by simp [howner]) ⟨rfl, rfl, rfl⟩ (fun o => ?_) ?_
      · rw [halive, howner]
        rfl
      · by_contra hposted
        exact hcount (hmeets.trans (if_neg hposted))
  | freeSem howner =>
      rw [howner] at hmeets
      refine hinv.construct (by simp [howner]) ⟨rfl, rfl, rfl⟩ (fun o => ?_) hmeets
      simp only [halive, howner]
      cases o <;> rfl
  | failed howner herror =>
      rw [howner] at hmeets
      rw [hinv.error] at herror
      refine hinv.construct (by simp [howner]) ⟨rfl, rfl, rfl⟩ (fun o => ?_) ?_
      · rw [halive, howner]
        cases o <;> rfl
      · revert hmeets herror
        cases s.worker <;> simp [Owner.Meets, Worker.hasPosted, Worker.hasError]
  | started howner herror =>
      rw [howner] at hmeets
      rw [hinv.error] at herror
      refine hinv.construct (by simp [howner]) ⟨rfl, rfl, rfl⟩ (fun o => ?_) ?_
      · simp only [halive, howner]
        cases o <;> rfl
      · revert hmeets herror
        cases s.worker <;> simp [Owner.Meets, Worker.hasPosted, Worker.hasError]
  | stop howner =>
      rw [howner] at hmeets
      have hthread : Thread.Invariant { s.thread with stopped := true } :=
        hinv.thread.step (.stop (l := .itemStops) (.inr rfl))
      refine ⟨hthread, fun o => ?_, hmeets, hinv.error, ?_, ?_, ?_, ?_, ?_, hinv.selfJoined, ?_⟩
      · rw [halive, howner]
        rfl
      · exact fun _ => hinv.idle (by rw [howner]; rfl)
      · exact fun _ _ => rfl
      · intro h
        refine hinv.item ?_
        simp only [State.busy, Bool.and_eq_true] at h ⊢
        exact ⟨h.1, by rw [howner]; rfl⟩
      · exact fun hclear hset _ => hinv.joined hclear hset (by simp [howner])
      · intro h
        cases h
      · intro freeing h
        cases h
  | @readClear freeing howner hclear =>
      rw [howner] at hmeets
      refine ⟨hinv.thread, fun o => ?_, hmeets, hinv.error, ?_, ?_, ?_, ?_, ?_, fun _ => rfl, ?_⟩
      · rw [halive, howner]
        rfl
      · intro h
        refine hinv.idle ?_
        rw [howner]
        cases freeing <;> exact h
      · intro h _
        refine hinv.stopped ?_ (by simp [howner])
        rw [howner]
        cases freeing <;> exact h
      · intro h
        refine hinv.item ?_
        simp only [State.busy, Bool.and_eq_true] at h ⊢
        exact ⟨h.1, by rw [howner]; rfl⟩
      · exact fun _ _ h => absurd rfl (h freeing)
      · intro h
        cases h
      · have hself : s.selfJoined = false := by
          by_contra hself
          rw [hinv.selfJoined (Bool.eq_true_of_not_eq_false hself)] at hclear
          cases hclear
        exact fun _ _ => ⟨rfl, by rw [hself, Bool.false_or]⟩
  | @readSet freeing howner hset =>
      exact hinv.leaveJoin (.inl howner) hset
        fun hclear => hinv.joined hclear hset (by simp [howner])
  | @joined freeing howner hreturned =>
      obtain ⟨hset, hself⟩ := hinv.joining freeing howner
      refine hinv.leaveJoin (.inr howner) hset fun hclear => ?_
      rcases hreturned with hitem | hreturned
      · rw [← hself, hclear] at hitem
        cases hitem
      · exact hreturned
  | @freeQueue error howner =>
      refine hinv.releasing (.inl ⟨howner, rfl⟩) fun o => ?_
      simp only [halive, howner]
      cases error <;> cases o <;> rfl
  | @freeReactor error howner =>
      refine hinv.releasing (.inr (.inl ⟨howner, rfl⟩)) fun o => ?_
      simp only [halive, howner]
      cases error <;> cases o <;> rfl
  | @freeThread error howner =>
      refine hinv.releasing (.inr (.inr ⟨howner, rfl⟩)) fun o => ?_
      simp only [halive, howner]
      cases error <;> cases o <;> rfl

theorem invariant_of_reachable {capacity : UInt64}
    (h : Reachable (Guarded Contract (Next State.step)) (start capacity) s) : Invariant s := by
  refine h.invariant ?_ (invariant_start capacity)
  rintro s l s' hinv ⟨hcontract, hnext⟩
  exact hinv.step hcontract (effect_of_step hnext)

end Lifetime

end Thread

end Osi
