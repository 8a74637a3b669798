import Osi.FixedQueue.Basic
import Osi.HashMap.Refinement.Iteration
import Osi.Transition.Run

/-!
# The data dispatcher

A dispatcher has a hash map from types to queues and a default queue. A type is a
number as wide as a pointer and is itself the key: it is hashed to itself, compared
by `==`, and falls into one of ten buckets. The queues belong to others, who take
elements out of them while the dispatcher is in use.

What a dispatch does is read off the calls that were made before: the last
registration of the type decides, and after it the last registration of a default.
-/

namespace Osi

open Collection Transition

/-- `hash_map_new(DEFAULT_TABLE_BUCKETS, hash_function_naive, NULL, NULL, NULL)`. -/
def dispatchTableParams : HashMapParams UInt64 where
  numBucket := 10
  hashFn := UInt64.toNat
  keysAreEqual := fun x y => x == y
  numBucket_pos := by decide

theorem lawful_dispatchTableParams : dispatchTableParams.Lawful where
  equality := ⟨by simp [dispatchTableParams], by simp [dispatchTableParams],
    by simp [dispatchTableParams]⟩
  hashFn_eq := by simp [dispatchTableParams]

/-- `data_dispatcher_t` without its name; `Q` are the addresses of queues, and `none` is
`NULL`. -/
structure DataDispatcher (Q : Type*) where
  dispatchTable : HashMap dispatchTableParams Q
  defaultQueue : Option Q

namespace DataDispatcher

variable {Q α : Type*}

def new : DataDispatcher Q where
  dispatchTable := HashMap.new
  defaultQueue := none

def register (d : DataDispatcher Q) (type : UInt64) (queue : Option Q) : DataDispatcher Q :=
  let erased := (d.dispatchTable.erase type).1
  match queue with
  | none => { d with dispatchTable := erased }
  | some q => { d with dispatchTable := (erased.set .succeeding type q).1 }

def registerDefault (d : DataDispatcher Q) (queue : Option Q) : DataDispatcher Q :=
  { d with defaultQueue := queue }

def queueOf (d : DataDispatcher Q) (type : UInt64) : Option Q :=
  match d.dispatchTable.get type with
  | some q => some q
  | none => d.defaultQueue

/-- `data_dispatcher_dispatch`: the queues after it and what it returns, or `none` if it
waits for a slot. -/
def dispatch [DecidableEq Q] (d : DataDispatcher Q) (queues : Q → FixedQueue α)
    (type : UInt64) (data : α) : Option ((Q → FixedQueue α) × Bool) :=
  match d.queueOf type with
  | some q =>
      match (queues q).enqueue data with
      | some queue => some (Function.update queues q queue, true)
      | none => none
  | none => some (queues, false)

/-! ## One call -/

theorem wellformed_register {d : DataDispatcher Q} (h : d.dispatchTable.Wellformed)
    (type : UInt64) (queue : Option Q) :
    (d.register type queue).dispatchTable.Wellformed := by
  cases queue with
  | none => exact h.erase type
  | some q => exact (h.erase type).set lawful_dispatchTableParams type q

/-- A registration is seen by its own type only, whatever the buckets of the others. -/
theorem get_register {d : DataDispatcher Q} (h : d.dispatchTable.Wellformed)
    (type : UInt64) (queue : Option Q) (type' : UInt64) :
    (d.register type queue).dispatchTable.get type' =
      if type = type' then queue else d.dispatchTable.get type' := by
  have hkeys : (dispatchTableParams.keysAreEqual type type' = true) ↔ type = type' := by
    simp [dispatchTableParams]
  have herase := h.get_update lawful_dispatchTableParams (.erase type) type'
  cases queue with
  | none =>
      simp only [HashMap.Update.key, HashMap.Update.value, hkeys] at herase
      exact herase
  | some q =>
      have hset := (h.erase type).get_update lawful_dispatchTableParams (.set type q) type'
      simp only [HashMap.Update.key, HashMap.Update.value, hkeys] at hset herase
      refine hset.trans ?_
      split
      · rfl
      · rename_i hne
        rw [if_neg hne] at herase
        exact herase

@[simp] theorem defaultQueue_register (d : DataDispatcher Q) (type : UInt64)
    (queue : Option Q) : (d.register type queue).defaultQueue = d.defaultQueue := by
  cases queue <;> rfl

theorem dispatch_of_queueOf [DecidableEq Q] {d : DataDispatcher Q}
    {queues : Q → FixedQueue α} {type : UInt64} {q : Q} (h : d.queueOf type = some q)
    (hroom : (queues q).length < (queues q).slots) (data : α) :
    ∃ queues', d.dispatch queues type data = some (queues', true) ∧
      (queues' q).list = (queues q).list ++ [data] ∧
      (queues' q).capacity = (queues q).capacity ∧ ∀ q', q' ≠ q → queues' q' = queues q' := by
  have hsem : (queues q).enqueueSem ≠ 0 := by
    rw [Ne, FixedQueue.enqueueSem_eq_zero_iff, not_le]
    exact hroom
  obtain ⟨queue, hqueue⟩ : ∃ queue, (queues q).enqueue data = some queue := by
    unfold FixedQueue.enqueue FixedQueue.tryEnqueue
    rw [dif_neg hsem]
    exact ⟨_, rfl⟩
  obtain ⟨-, hlist, hcapacity⟩ := (FixedQueue.enqueue_eq_some_iff _ queue data).mp hqueue
  refine ⟨Function.update queues q queue, ?_, ?_, ?_, ?_⟩
  · simp only [dispatch, h, hqueue]
  · rw [Function.update_self, hlist]
  · rw [Function.update_self, hcapacity]
  · intro q' hq'
    rw [Function.update_of_ne hq']

/-! ## The calls -/

/-- The calls on a dispatcher, and the removals from its queues by others. -/
inductive Label (Q α : Type*)
  | register (type : UInt64) (queue : Option Q)
  | registerDefault (queue : Option Q)
  | dispatch (type : UInt64) (data : α)
  | dequeue (queue : Q)
  deriving DecidableEq, Repr

structure State (Q α : Type*) where
  dispatcher : DataDispatcher Q
  queues : Q → FixedQueue α

inductive Fault
  | waits
  deriving DecidableEq, Repr

def init (queues : Q → FixedQueue α) : State Q α where
  dispatcher := new
  queues := queues

def step [DecidableEq Q] [DecidableEq α] (s : State Q α) : Label Q α → Except Fault (State Q α)
  | .register type queue => .ok { s with dispatcher := s.dispatcher.register type queue }
  | .registerDefault queue => .ok { s with dispatcher := s.dispatcher.registerDefault queue }
  | .dispatch type data =>
      match s.dispatcher.dispatch s.queues type data with
      | some (queues, _) => .ok { s with queues := queues }
      | none => .error .waits
  | .dequeue q =>
      match (s.queues q).dequeue with
      | some (_, queue) => .ok { s with queues := Function.update s.queues q queue }
      | none => .error .waits

/-! ## Which queue a type has -/

def Registers (type : UInt64) (l : Label Q α) : Prop := ∃ queue, l = .register type queue

def RegistersDefault (l : Label Q α) : Prop := ∃ queue, l = .registerDefault queue

def Registered (ls : List (Label Q α)) (type : UInt64) (q : Q) : Prop :=
  ∃ n, IsLast (Registers type) ls n (.register type (some q))

def RegisteredDefault (ls : List (Label Q α)) (q : Q) : Prop :=
  ∃ n, IsLast RegistersDefault ls n (.registerDefault (some q))

def Routes (ls : List (Label Q α)) (type : UInt64) (q : Q) : Prop :=
  Registered ls type q ∨ (∀ q', ¬ Registered ls type q') ∧ RegisteredDefault ls q

structure Agrees (ls : List (Label Q α)) (d : DataDispatcher Q) : Prop where
  wellformed : d.dispatchTable.Wellformed
  registered : ∀ type q, d.dispatchTable.get type = some q ↔ Registered ls type q
  registeredDefault : ∀ q, d.defaultQueue = some q ↔ RegisteredDefault ls q

theorem Agrees.nil : Agrees ([] : List (Label Q α)) new where
  wellformed := HashMap.wellformed_new
  registered := by
    intro type q
    have hnone : (new : DataDispatcher Q).dispatchTable.get type = none := rfl
    rw [hnone]
    refine iff_of_false (by simp) ?_
    rintro ⟨n, h⟩
    exact absurd h.lt_length (Nat.not_lt_zero n)
  registeredDefault := by
    intro q
    refine iff_of_false (by simp [new]) ?_
    rintro ⟨n, h⟩
    exact absurd h.lt_length (Nat.not_lt_zero n)

section Concat

variable {ls : List (Label Q α)} {d : DataDispatcher Q}

theorem registered_concat_of_not {l : Label Q α} {type : UInt64} (h : ¬ Registers type l)
    (q : Q) : Registered (ls ++ [l]) type q ↔ Registered ls type q := by
  unfold Registered
  simp only [IsLast.concat_iff_of_not h]

theorem registeredDefault_concat_of_not {l : Label Q α} (h : ¬ RegistersDefault l) (q : Q) :
    RegisteredDefault (ls ++ [l]) q ↔ RegisteredDefault ls q := by
  unfold RegisteredDefault
  simp only [IsLast.concat_iff_of_not h]

theorem Agrees.register (h : Agrees ls d) (type : UInt64) (queue : Option Q) :
    Agrees (ls ++ [.register type queue]) (d.register type queue) where
  wellformed := wellformed_register h.wellformed type queue
  registered := by
    intro type' q
    rw [get_register h.wellformed]
    split
    · rename_i htype
      subst htype
      have htouch : Registers type (.register type queue : Label Q α) := ⟨queue, rfl⟩
      unfold Registered
      simp only [IsLast.concat_iff_of htouch]
      simp
    · rename_i htype
      rw [registered_concat_of_not, h.registered]
      rintro ⟨queue', heq⟩
      cases heq
      exact htype rfl
  registeredDefault := by
    intro q
    rw [defaultQueue_register, registeredDefault_concat_of_not, h.registeredDefault]
    rintro ⟨queue', heq⟩
    cases heq

theorem Agrees.registerDefault (h : Agrees ls d) (queue : Option Q) :
    Agrees (ls ++ [.registerDefault queue]) (d.registerDefault queue) where
  wellformed := h.wellformed
  registered := by
    intro type q
    rw [registered_concat_of_not]
    · exact h.registered type q
    · rintro ⟨queue', heq⟩
      cases heq
  registeredDefault := by
    intro q
    have htouch : RegistersDefault (.registerDefault queue : Label Q α) := ⟨queue, rfl⟩
    unfold RegisteredDefault
    simp only [IsLast.concat_iff_of htouch]
    simp [DataDispatcher.registerDefault]

theorem Agrees.other (h : Agrees ls d) {l : Label Q α} (htype : ∀ type, ¬ Registers type l)
    (hdefault : ¬ RegistersDefault l) : Agrees (ls ++ [l]) d where
  wellformed := h.wellformed
  registered := by
    intro type q
    rw [registered_concat_of_not (htype type)]
    exact h.registered type q
  registeredDefault := by
    intro q
    rw [registeredDefault_concat_of_not hdefault]
    exact h.registeredDefault q

theorem Agrees.queueOf (h : Agrees ls d) (type : UInt64) (q : Q) :
    d.queueOf type = some q ↔ Routes ls type q := by
  have hregistered := h.registered type
  unfold DataDispatcher.queueOf Routes
  cases hget : d.dispatchTable.get type with
  | some q' =>
      rw [hget] at hregistered
      rw [← hregistered]
      refine (or_iff_left ?_).symm
      rintro ⟨hnone, -⟩
      exact hnone q' ((hregistered q').mp rfl)
  | none =>
      rw [hget] at hregistered
      have hnone : ∀ q', ¬ Registered ls type q' := by
        intro q' hq'
        exact absurd ((hregistered q').mpr hq') (by simp)
      rw [← h.registeredDefault, or_iff_right (hnone q), and_iff_right hnone]

end Concat

variable [DecidableEq Q] [DecidableEq α]

theorem dispatcher_of_dispatch {s s' : State Q α} {type : UInt64} {data : α}
    (h : step s (.dispatch type data) = .ok s') : s'.dispatcher = s.dispatcher := by
  simp only [step] at h
  split at h <;> cases h
  rfl

theorem dispatcher_of_dequeue {s s' : State Q α} {q : Q}
    (h : step s (.dequeue q) = .ok s') : s'.dispatcher = s.dispatcher := by
  simp only [step] at h
  split at h <;> cases h
  rfl

theorem Agrees.step {ls : List (Label Q α)} {s s' : State Q α} {l : Label Q α}
    (h : Agrees ls s.dispatcher) (hstep : DataDispatcher.step s l = .ok s') :
    Agrees (ls ++ [l]) s'.dispatcher := by
  cases l with
  | register type queue =>
      cases hstep
      exact h.register type queue
  | registerDefault queue =>
      cases hstep
      exact h.registerDefault queue
  | dispatch type data =>
      rw [dispatcher_of_dispatch hstep]
      exact h.other (by rintro type' ⟨queue, heq⟩; cases heq) (by rintro ⟨queue, heq⟩; cases heq)
  | dequeue q =>
      rw [dispatcher_of_dequeue hstep]
      exact h.other (by rintro type' ⟨queue, heq⟩; cases heq) (by rintro ⟨queue, heq⟩; cases heq)

theorem agrees_of_run {queues : Q → FixedQueue α} {ls : List (Label Q α)} {s : State Q α}
    (h : Run (Next DataDispatcher.step) (init queues) ls s) : Agrees ls s.dispatcher := by
  induction h with
  | nil => exact .nil
  | snoc _ hlast ih => exact ih.step hlast

/-! ## The routing -/

/-- After any calls on a new dispatcher, whatever its queues contain. If data of the type
goes to the queue `q` and this has room, a dispatch appends the data to `q`, leaves every
other queue as it is and returns true; if it goes to no queue, a dispatch changes no queue
and returns false. A further registration leaves the queues of the other types as they are. -/
theorem dispatch_routes {queues : Q → FixedQueue α} {ls : List (Label Q α)} {s : State Q α}
    (h : Run (Next DataDispatcher.step) (init queues) ls s) (type : UInt64) :
    (∀ q, Routes ls type q → (s.queues q).length < (s.queues q).slots → ∀ data,
      ∃ queues', s.dispatcher.dispatch s.queues type data = some (queues', true) ∧
        (queues' q).list = (s.queues q).list ++ [data] ∧
        (queues' q).capacity = (s.queues q).capacity ∧
        ∀ q', q' ≠ q → queues' q' = s.queues q') ∧
    ((∀ q, ¬ Routes ls type q) → ∀ data,
      s.dispatcher.dispatch s.queues type data = some (s.queues, false)) ∧
    ∀ type' queue, type' ≠ type →
      (s.dispatcher.register type' queue).queueOf type = s.dispatcher.queueOf type := by
  have hagrees := agrees_of_run h
  refine ⟨?_, ?_, ?_⟩
  · intro q hroutes hroom data
    exact dispatch_of_queueOf ((hagrees.queueOf type q).mpr hroutes) hroom data
  · intro hnone data
    have hqueue : s.dispatcher.queueOf type = none := by
      rw [Option.eq_none_iff_forall_ne_some]
      intro q hq
      exact hnone q ((hagrees.queueOf type q).mp hq)
    simp only [dispatch, hqueue]
  · intro type' queue hne
    unfold queueOf
    rw [get_register hagrees.wellformed, if_neg hne, defaultQueue_register]

/-- The types 3 and 13 share a bucket; 3 is registered again and 13 is removed, and the
default takes what is left. -/
def collidingTypes : List (Label Bool ℕ) :=
  [.register 3 (some false), .register 13 (some true), .registerDefault (some true),
    .dispatch 13 7, .register 13 none, .register 3 (some false), .dispatch 0 8, .dequeue true]

theorem dispatch_routes_collidingTypes :
    ∃ s, Run (Next DataDispatcher.step) (init fun _ => FixedQueue.new 4) collidingTypes s ∧
      ∃ queues', s.dispatcher.dispatch s.queues 13 9 = some (queues', true) ∧
        (queues' true).list = [8, 9] ∧ queues' false = s.queues false := by
  have hend : (exec (fun _ _ => true) DataDispatcher.step
      (init fun _ : Bool => (FixedQueue.new 4 : FixedQueue ℕ)) collidingTypes).any
      (fun s => decide ((s.queues true).list = [8] ∧
        (s.queues true).length < (s.queues true).slots)) = true := by
    decide +kernel
  obtain ⟨s, hs, hend⟩ := (Option.any_eq_true _ _).mp hend
  obtain ⟨hlist, hroom⟩ := of_decide_eq_true hend
  have hrun := Run.of_exec_true hs
  have hroutes : Routes collidingTypes 13 true := by
    refine .inr ⟨?_, 2, ?_⟩
    · rintro q ⟨n, hlast⟩
      have hremoved : IsLast (Registers 13) collidingTypes 4 (.register 13 none) := by
        refine IsLast.of_drop rfl ⟨none, rfl⟩ ?_
        simp [collidingTypes, Registers]
      cases (hlast.unique hremoved).2
    · refine IsLast.of_drop rfl ⟨some true, rfl⟩ ?_
      simp [collidingTypes, RegistersDefault]
  obtain ⟨queues', hdispatch, happended, -, hothers⟩ :=
    (dispatch_routes hrun 13).1 true hroutes hroom 9
  rw [hlist] at happended
  exact ⟨s, hrun, queues', hdispatch, happended, hothers false (by decide)⟩

end DataDispatcher

end Osi
