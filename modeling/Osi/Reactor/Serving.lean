import Osi.Reactor.Ownership

/-!
# Serving events

What `epoll_wait` reported and `run_reactor` has not looked up is on the invalidation
list, or it is allocated and no thread is about to release it. The object that is being
served is locked until its callbacks have returned.

All this needs that a callback unregisters no other object than its own (`OwnObject`):
the flag `object_removed` does not say which object was removed. Then no step uses an
object that is not allocated.
-/

namespace Osi

namespace Reactor

open Memory Transition

variable {T : Type*} {s s' : State T} {e e' : Event} {p : Addr} {object : Object T}

def State.Removing (s : State T) (e : Event) : Prop :=
  s.loop.flagged = some e ∧ s.objectRemoved = true

/-- What keeps the object of an event from being used after it is freed. -/
structure Served (s : State T) : Prop where
  pending : ∀ e, e ∈ s.loop.reportable ∨ e ∈ s.loop.batch →
    e.addr ∈ s.invalidationList ∨ Live s.mem e ∧ ∀ t, (s.pc t).withdrawn ≠ some e
  nodup : s.loop.batch.Nodup
  once : ∀ e, s.loop.served = some e → e ∉ s.loop.batch
  chosen : ∀ e, s.loop.chosen = some e → Live s.mem e ∧ ∀ t, (s.pc t).withdrawn ≠ some e
  locked : ∀ e, s.loop.locked = some e → (∀ t, (s.pc t).owned ≠ some e) ∧
    ∃ object, s.mem e.addr = some object ∧ object.generation = e.generation ∧
      object.lock = some none
  removing : ∀ e, s.Removing e →
    Live s.mem e ∧ e ∉ s.handles ∧ ∀ t, (s.pc t).target ≠ some e

def OwnObject (s : State T) : Label T → Prop
  | .callbackUnregisters e => s.loop.served = some e
  | _ => True

instance (s : State T) : ∀ l, Decidable (OwnObject s l)
  | .callbackUnregisters e => inferInstanceAs (Decidable (s.loop.served = some e))
  | .start _ | .wait _ | .waitFails _ | .run => .isTrue trivial
  | .register _ _ _ _ | .add _ _ | .unregister _ _ | .thread _ => .isTrue trivial

theorem served_reactorNew : Served (reactorNew : State T) where
  pending e he := by rcases he with he | he <;> cases he
  nodup := List.nodup_nil
  once _ := nofun
  chosen _ := nofun
  locked _ := nofun
  removing e he := by cases he.1

theorem Loop.holdsList_of_chosen {loop : Loop} (h : loop.chosen = some e) :
    loop.holdsList = true := by
  cases loop <;> first | rfl | cases h

theorem Loop.served_of_chosen {loop : Loop} (h : loop.chosen = some e) :
    loop.served = some e := by
  cases loop <;> first | exact h | cases h

theorem Loop.served_of_locked {loop : Loop} (h : loop.locked = some e) :
    loop.served = some e := by
  cases loop <;> first | exact h | cases h

theorem Loop.served_of_flagged {loop : Loop} (h : loop.flagged = some e) :
    loop.served = some e := by
  cases loop <;> first | exact h | cases h

theorem Loop.added_eq (loop : Loop) (e : Event) :
    loop.added e = loop ∨ ∃ reportable, loop = .waiting reportable := by
  cases loop with
  | waiting reportable => exact .inr ⟨reportable, rfl⟩
  | _ => exact .inl rfl

theorem served_of_none (hserved : s.loop.served = none) (hnodup : s.loop.batch.Nodup)
    (hpending : ∀ e, e ∈ s.loop.reportable ∨ e ∈ s.loop.batch →
      e.addr ∈ s.invalidationList ∨ Live s.mem e ∧ ∀ t, (s.pc t).withdrawn ≠ some e) :
    Served s := by
  have hnot : ∀ e, s.loop.served ≠ some e := by
    intro e
    rw [hserved]
    nofun
  exact ⟨hpending, hnodup, fun e he => absurd he (hnot e),
    fun e he => absurd (Loop.served_of_chosen he) (hnot e),
    fun e he => absurd (Loop.served_of_locked he) (hnot e),
    fun e he => absurd (Loop.served_of_flagged he.1) (hnot e)⟩

theorem of_none {p : Prop} (h : (none : Option Event) = some e) : p := by
  cases h

namespace Served

theorem live_of_locked (hs : Served s) (he : s.loop.locked = some e) : Live s.mem e := by
  obtain ⟨-, object, hobject, hgeneration, -⟩ := hs.locked e he
  rw [Live, generations_of_mem hobject, hgeneration]

/-- `run_reactor` goes on with a part of what it had. -/
theorem between (hs : Served s) (hmem : s'.mem = s.mem) (hpc : s'.pc = s.pc)
    (hlist : s'.invalidationList = s.invalidationList) (hserved : s'.loop.served = none)
    (hreportable : s'.loop.reportable = []) (hnodup : s'.loop.batch.Nodup)
    (hbatch : ∀ e ∈ s'.loop.batch, e ∈ s.loop.reportable ∨ e ∈ s.loop.batch) : Served s' := by
  refine served_of_none hserved hnodup fun e he => ?_
  rw [hreportable] at he
  rw [hlist, hmem, hpc]
  exact hs.pending e (hbatch e (he.resolve_left List.not_mem_nil))

/-- `run_reactor` goes on with what it had, and serves nothing now. -/
theorem between_batch (hs : Served s) (hmem : s'.mem = s.mem) (hpc : s'.pc = s.pc)
    (hlist : s'.invalidationList = s.invalidationList) (hserved : s'.loop.served = none)
    (hreportable : s'.loop.reportable = []) (hbatch : s'.loop.batch = s.loop.batch) :
    Served s' := by
  refine hs.between hmem hpc hlist hserved hreportable (hbatch ▸ hs.nodup) ?_
  intro e he
  rw [hbatch] at he
  exact .inr he

/-- `run_reactor` goes on with the same object. -/
theorem onward (hs : Served s) (hmem : generations s'.mem = generations s.mem)
    (hpc : s'.pc = s.pc) (hlist : s'.invalidationList = s.invalidationList)
    (hhandles : s'.handles = s.handles) (hserved : s'.loop.served = s.loop.served)
    (hreportable : s'.loop.reportable = []) (hbatch : s'.loop.batch = s.loop.batch)
    (hchosen : s'.loop.chosen = none)
    (hlocked : ∀ e, s'.loop.locked = some e → (∀ t, (s.pc t).owned ≠ some e) ∧
      ∃ object, s'.mem e.addr = some object ∧ object.generation = e.generation ∧
        object.lock = some none)
    (hremoving : ∀ e, s'.Removing e → s.Removing e) : Served s' := by
  refine ⟨?_, hbatch ▸ hs.nodup, ?_, ?_, ?_, ?_⟩
  · intro e he
    rw [hreportable, hbatch] at he
    rw [hlist, Live, hmem, hpc]
    exact hs.pending e (he.imp_left fun he => absurd he List.not_mem_nil)
  · rw [hserved, hbatch]
    exact hs.once
  · intro e he
    rw [hchosen] at he
    cases he
  · rw [hpc]
    exact hlocked
  · intro e he
    rw [Live, hmem, hhandles, hpc]
    exact hs.removing e (hremoving e he)

theorem added (hs : Served s) (hlive : Live s.mem e) (hpc : ∀ t, (s.pc t).withdrawn ≠ some e) :
    Served { s with loop := s.loop.added e } := by
  rcases s.loop.added_eq e with hsame | ⟨reportable, hloop⟩
  · rw [hsame]
    exact hs
  · rw [hloop]
    refine served_of_none rfl List.nodup_nil fun e' he' => ?_
    rcases List.mem_append.mp (he'.resolve_right List.not_mem_nil) with he' | he'
    · exact hs.pending e' (.inl (by rwa [hloop]))
    · rw [List.mem_singleton.mp he']
      exact .inr ⟨hlive, hpc⟩

theorem choose {report : Report} {rest : List (Option Report)} (hs : Served s)
    (hloop : s.loop = .contains report rest)
    (hlist : report.event.addr ∉ s.invalidationList) :
    Served { s with loop := .lockObject report rest } := by
  have hnodup := hs.nodup
  rw [hloop] at hnodup
  have hpending : ∀ e ∈ report.event :: eventsOf rest,
      e.addr ∈ s.invalidationList ∨ Live s.mem e ∧ ∀ t, (s.pc t).withdrawn ≠ some e :=
    fun e he => hs.pending e (.inr (by rw [hloop]; exact he))
  have hchosen := (hpending report.event List.mem_cons_self).resolve_left hlist
  refine ⟨?_, (List.nodup_cons.mp hnodup).2, ?_, ?_, fun _ => of_none, ?_⟩
  · intro e he
    exact hpending e (List.mem_cons_of_mem _ (he.resolve_left List.not_mem_nil))
  · rintro e ⟨⟩
    exact (List.nodup_cons.mp hnodup).1
  · rintro e ⟨⟩
    exact hchosen
  · intro e he
    cases he.1

theorem serve {loop : Loop} {removed : Bool} {actions : List (Action T)} (hs : Served s)
    (he : s.loop.locked = some e)
    (hloop : loop.locked = some e ∧ loop.flagged = some e ∧ loop.batch = s.loop.batch ∧
      loop.holdsList = false)
    (hremoved : removed = true ↔ s.loop.flagged = some e ∧ s.objectRemoved = true) :
    Served ({ s with loop := loop, objectRemoved := removed }.record actions) := by
  obtain ⟨hloop, hflagged, hbatch, -⟩ := hloop
  refine hs.onward rfl rfl rfl rfl ?_ ?_ hbatch ?_ ?_ ?_
  · rw [Loop.served_of_locked he]
    exact Loop.served_of_locked hloop
  · cases loop <;> first | rfl | cases hloop
  · cases loop <;> first | rfl | cases hloop
  · intro e' he'
    cases hloop.symm.trans he'
    exact hs.locked e he
  · rintro e' ⟨he', hremoved'⟩
    cases hflagged.symm.trans he'
    exact hremoved.mp hremoved'

/-- `run_reactor` releases the object whose callback has unregistered it. -/
theorem remove {report : Report} {rest : List (Option Report)} {actions : List (Action T)}
    (hs : Served s) (hloop : s.loop = .afterUnlock report rest)
    (hremoved : s.objectRemoved = true) :
    Served (({ s with loop := .events rest }.release report.event.addr).record actions) := by
  have hnodup := hs.nodup
  rw [hloop] at hnodup
  obtain ⟨hlive, -, -⟩ := hs.removing report.event ⟨by rw [hloop]; rfl, hremoved⟩
  refine served_of_none rfl hnodup fun e he => ?_
  have he : e ∈ s.loop.batch := by
    rw [hloop]
    exact he.resolve_left List.not_mem_nil
  refine (hs.pending e (.inr he)).imp_right fun hpending => ⟨?_, hpending.2⟩
  refine hpending.1.release hlive fun heq => ?_
  exact hs.once report.event (by rw [hloop]; rfl) (heq ▸ he)

theorem callbackUnregisters {actions : List (Action T)} (howned : Owned s) (hs : Served s)
    (hserved : s.loop.served = some e) (hloop : s.loop.inCallback = true) (he : e ∈ s.handles) :
    Served ({ s with
      handles := s.handles.filter (· ≠ e)
      epoll := s.epoll.filter (· ≠ e)
      objectRemoved := true }.record actions) := by
  have hlocked : s.loop.locked = some e := by
    cases hs : s.loop <;> rw [hs] at hloop hserved <;> first | exact hserved | cases hloop
  refine ⟨hs.pending, hs.nodup, hs.once, hs.chosen, hs.locked, ?_⟩
  rintro e' ⟨he', -⟩
  cases hserved.symm.trans (Loop.served_of_flagged he')
  refine ⟨hs.live_of_locked hlocked, ?_, fun t ht => (howned.target t e ht).2 he⟩
  simp [State.record]

variable [DecidableEq T]

/-- A thread `t` goes to `pc`. It frees or locks at most the object that it owns; what it
withdraws is on the list, and what it comes to own is not locked by `run_reactor`. -/
theorem thread {t : T} {pc : Pc} (hs : Served s) (hpc : s'.pc = Function.update s.pc t pc)
    (hloop : s'.loop = s.loop) (hremoved : s'.objectRemoved = s.objectRemoved)
    (hlist : ∀ p ∈ s.invalidationList, p ∈ s'.invalidationList)
    (hhandles : ∀ e ∈ s'.handles, (s.pc t).target ≠ some e → e ∈ s.handles)
    (hlive : ∀ e, Live s.mem e → (s.pc t).owned ≠ some e → Live s'.mem e)
    (hobject : ∀ e object, s.mem e.addr = some object → object.generation = e.generation →
      object.lock = some none → (s.pc t).owned ≠ some e → s'.mem e.addr = some object)
    (hwithdrawn : ∀ e, Live s.mem e → pc.withdrawn = some e → (s.pc t).withdrawn = some e ∨
      e.addr ∈ s'.invalidationList ∧ s.loop.chosen ≠ some e)
    (howned : ∀ e, s.loop.locked = some e → pc.owned = some e → (s.pc t).owned = some e)
    (htarget : ∀ e, Live s.mem e → e ∉ s.handles → pc.target = some e →
      (s.pc t).target = some e) : Served s' := by
  refine ⟨?_, by rw [hloop]; exact hs.nodup, by rw [hloop]; exact hs.once, ?_, ?_, ?_⟩
  · intro e he
    rw [hloop] at he
    rcases hs.pending e he with hmem | ⟨hlive', hnone⟩
    · exact .inl (hlist _ hmem)
    · by_cases hmem : e.addr ∈ s'.invalidationList
      · exact .inl hmem
      · refine .inr ⟨hlive e hlive' fun ht => hnone t (Pc.withdrawn_of_owned ht), fun u hu => ?_⟩
        rcases update_cases Pc.withdrawn hu hpc with ⟨-, hu⟩ | ⟨-, hu⟩
        · rcases hwithdrawn e hlive' hu with ht | ⟨hmem', -⟩
          · exact hnone t ht
          · exact hmem hmem'
        · exact hnone u hu
  · intro e he
    rw [hloop] at he
    obtain ⟨hlive', hnone⟩ := hs.chosen e he
    refine ⟨hlive e hlive' fun ht => hnone t (Pc.withdrawn_of_owned ht), fun u hu => ?_⟩
    rcases update_cases Pc.withdrawn hu hpc with ⟨-, hu⟩ | ⟨-, hu⟩
    · rcases hwithdrawn e hlive' hu with ht | ⟨-, hchosen⟩
      · exact hnone t ht
      · exact hchosen he
    · exact hnone u hu
  · intro e he
    rw [hloop] at he
    obtain ⟨hnone, object, hmem, hgeneration, hlock⟩ := hs.locked e he
    refine ⟨fun u hu => ?_, object, hobject e object hmem hgeneration hlock (hnone t),
      hgeneration, hlock⟩
    rcases update_cases Pc.owned hu hpc with ⟨-, hu⟩ | ⟨-, hu⟩
    · exact hnone t (howned e he hu)
    · exact hnone u hu
  · intro e he
    rw [State.Removing, hloop, hremoved] at he
    obtain ⟨hlive', hhandle, hnone⟩ := hs.removing e he
    refine ⟨hlive e hlive' fun ht => ?_, fun hmem => hhandle (hhandles e hmem (hnone t)),
      fun u hu => ?_⟩
    · exact hnone t (Pc.target_of_withdrawn (Pc.withdrawn_of_owned ht))
    · rcases update_cases Pc.target hu hpc with ⟨-, hu⟩ | ⟨-, hu⟩
      · exact hnone t (htarget e hlive' hhandle hu)
      · exact hnone u hu

/-- A move of a thread that touches no object and withdraws none. -/
theorem goto {t : T} {pc : Pc} (hs : Served s) (hpc : s'.pc = Function.update s.pc t pc)
    (hloop : s'.loop = s.loop) (hremoved : s'.objectRemoved = s.objectRemoved)
    (hlist : s'.invalidationList = s.invalidationList) (hmem : s'.mem = s.mem)
    (hhandles : ∀ e ∈ s'.handles, (s.pc t).target ≠ some e → e ∈ s.handles)
    (hwithdrawn : ∀ e, pc.withdrawn = some e → (s.pc t).withdrawn = some e)
    (howned : ∀ e, pc.owned = some e → (s.pc t).owned = some e)
    (htarget : ∀ e, e ∉ s.handles → pc.target = some e → (s.pc t).target = some e) :
    Served s' := by
  refine hs.thread hpc hloop hremoved (fun p hp => hlist ▸ hp) hhandles ?_ ?_
    (fun e _ he => .inl (hwithdrawn e he)) (fun e _ he => howned e he) fun e _ => htarget e
  · intro e he _
    rwa [hmem]
  · intro e object he _ _ _
    rwa [hmem]

theorem register {t : T} (howned : Owned s) (hs : Served s) (hp : s.mem p = none) :
    Served ({ s with
      mem := Function.update s.mem p (some object)
      nextGeneration := s.nextGeneration + 1 }.goto t (.registerAdd ⟨p, s.nextGeneration⟩)) := by
  have hfresh : ∀ e, Live s.mem e → Pc.target (.registerAdd ⟨p, s.nextGeneration⟩) ≠ some e := by
    rintro e he ⟨⟩
    exact lt_irrefl _ (howned.fresh _ _ he)
  refine hs.thread rfl rfl rfl (fun _ h => h) (fun _ h _ => h) (fun e h _ => h.alloc hp) ?_
    (fun e he h => absurd h (hfresh e he))
    (fun e he h => absurd h (hfresh e (hs.live_of_locked he)))
    fun e he _ h => absurd h (hfresh e he)
  intro e object' he _ _ _
  have hne : e.addr ≠ p := by
    intro heq
    rw [heq, hp] at he
    cases he
  exact (Function.update_of_ne hne ..).trans he

/-- A thread has added its object to the epoll set. -/
theorem add {t : T} (howned : Owned s) (hs : Served s) (hpc : s.pc t = .registerAdd e) :
    Served ({ s with
      epoll := s.epoll ++ [e]
      handles := s.handles ++ [e]
      loop := s.loop.added e }.goto t .idle) := by
  have he : (s.pc t).target = some e := by
    rw [hpc]
    rfl
  have hidle : Served ({ s with
      epoll := s.epoll ++ [e]
      handles := s.handles ++ [e] }.goto t .idle) := by
    refine hs.goto rfl rfl rfl rfl rfl ?_ (fun _ => of_none) (fun _ => of_none) fun _ _ => of_none
    intro e' he' hne
    refine (List.mem_append.mp he').resolve_right fun he' => hne ?_
    rw [List.mem_singleton.mp he']
    exact he
  refine hidle.added (howned.target t e he).1 fun u hu => ?_
  rcases update_cases Pc.withdrawn hu rfl with ⟨-, hu⟩ | ⟨hut, hu⟩
  · cases hu
  · exact hut (howned.unique u t e (Pc.target_of_withdrawn hu) he)

/-- A thread locks the object that it has withdrawn: `run_reactor` does not have it. -/
theorem waitForObject {t : T} (hs : Served s) (hpc : s.pc t = .unregisterLockObject e)
    (hobject : s.mem e.addr = some object) (hlock : object.lock = none) :
    Served ((s.setLock e.addr object (some (some t))).goto t (.unregisterUnlockObject e)) := by
  refine hs.thread rfl rfl rfl (fun _ h => h) (fun _ h _ => h)
    (fun _ h _ => h.setLock hobject _) ?_ ?_ ?_ ?_
  · intro e' object' hobject' _ hlock' _
    have hne : e'.addr ≠ e.addr := by
      intro heq
      rw [heq, hobject] at hobject'
      cases hobject'
      rw [hlock] at hlock'
      cases hlock'
    exact (Function.update_of_ne hne ..).trans hobject'
  · rw [hpc]
    exact fun e _ he => .inl he
  · rintro e' he' ⟨⟩
    obtain ⟨-, object', hobject', -, hlock'⟩ := hs.locked e he'
    cases hobject.symm.trans hobject'
    rw [hlock] at hlock'
    cases hlock'
  · rw [hpc]
    exact fun e _ _ he => he

theorem gotObject {t : T} (howned : Owned s) (hs : Served s)
    (hpc : s.pc t = .unregisterUnlockObject e) (hobject : s.mem e.addr = some object) :
    Served ((s.setLock e.addr object none).goto t (.unregisterFree e)) := by
  refine hs.thread rfl rfl rfl (fun _ h => h) (fun _ h _ => h)
    (fun _ h _ => h.setLock hobject _) ?_ ?_ ?_ ?_
  · intro e' object' hobject' hgeneration' _ hnot
    have hne := howned.addr_ne (e := e) (by rw [hpc]; rfl) hobject' hgeneration' hnot
    exact (Function.update_of_ne hne ..).trans hobject'
  · rw [hpc]
    exact fun e _ he => .inl he
  · rw [hpc]
    exact fun e _ he => he
  · rw [hpc]
    exact fun e _ _ he => he

theorem release {t : T} {actions : List (Action T)} (howned : Owned s) (hs : Served s)
    (hpc : (s.pc t).owned = some e) :
    Served (((s.release e.addr).goto t .idle).record actions) := by
  have hlive := (howned.target t e (Pc.target_of_withdrawn (Pc.withdrawn_of_owned hpc))).1
  refine hs.thread rfl rfl rfl (fun _ h => h) (fun _ h _ => h) ?_ ?_ (fun _ _ => of_none)
    (fun _ _ => of_none) fun _ _ _ => of_none
  · intro e' hlive' hnot
    refine hlive'.release hlive ?_
    rintro rfl
    exact hnot hpc
  · intro e' object' hobject' hgeneration' _ hnot
    have hne := howned.addr_ne hpc hobject' hgeneration' hnot
    exact (Function.update_of_ne hne ..).trans hobject'

theorem step {l : Label T} (hlocked : ListLocked s) (howned : Owned s) (hs : Served s)
    (hguard : OwnObject s l) (h : Effect s l s') : Served s' := by
  have hnodup := hs.nodup
  cases h with
  | rest hbetween hloop =>
    refine hs.between rfl rfl rfl ?_ ?_ ?_ ?_ <;>
      rcases hloop with rfl | rfl | rfl <;>
        first | rfl | exact List.nodup_nil | exact List.forall_mem_nil _
  | lockClear hloop hlock =>
    exact hs.between rfl rfl rfl rfl rfl List.nodup_nil (List.forall_mem_nil _)
  | clear hloop =>
    refine served_of_none rfl List.nodup_nil fun e he => ?_
    rcases he with he | he <;> cases he
  | unlockCleared hloop =>
    exact hs.between rfl rfl rfl rfl rfl List.nodup_nil (List.forall_mem_nil _)
  | startWait hloop =>
    refine served_of_none rfl List.nodup_nil fun e he => .inr ?_
    have he : e ∈ s.epoll := he.resolve_right List.not_mem_nil
    exact ⟨howned.live_of_mem_epoll he, fun t ht => howned.not_mem_epoll ht he⟩
  | wait hloop hnodup hreports =>
    refine hs.between rfl rfl rfl rfl rfl hnodup fun e he => .inl ?_
    rw [hloop]
    exact hreports e he
  | select hloop hlock => exact hs.between_batch rfl rfl rfl rfl rfl (by rw [hloop]; rfl)
  | skip hloop =>
    rw [hloop] at hnodup
    refine hs.between rfl rfl rfl rfl rfl (List.nodup_cons.mp hnodup).2 fun e he => .inr ?_
    rw [hloop]
    exact List.mem_cons_of_mem _ he
  | choose hloop hlist => exact hs.choose hloop hlist
  | unlockSkipped hloop => exact hs.between_batch rfl rfl rfl rfl rfl (by rw [hloop]; rfl)
  | @lockObject report rest object hloop hobject hlock =>
    obtain ⟨hlive, hnone⟩ := hs.chosen report.event (by rw [hloop]; rfl)
    refine hs.onward (generations_setLock hobject _) rfl rfl rfl (by rw [hloop]; rfl) rfl
      (by rw [hloop]; rfl) rfl ?_ ?_
    · rintro e ⟨⟩
      have hgeneration := hlive.generation hobject
      exact ⟨fun t ht => hnone t (Pc.withdrawn_of_owned ht), _, Function.update_self ..,
        hgeneration, rfl⟩
    · intro e he
      cases he.1
  | @unlockList report rest hloop =>
    refine hs.onward rfl rfl rfl rfl (by rw [hloop]; rfl) rfl (by rw [hloop]; rfl) rfl ?_ ?_
    · intro e he
      exact hs.locked e (by rw [hloop]; exact he)
    · intro e he
      cases he.1
  | serve he _ hloop hremoved _ => exact hs.serve he hloop hremoved
  | @unlockObject report rest object hloop hobject =>
    refine hs.onward (generations_setLock hobject _) rfl rfl rfl (by rw [hloop]; rfl) rfl
      (by rw [hloop]; rfl) rfl (fun _ => of_none) ?_
    rintro e ⟨he, hremoved⟩
    exact ⟨by rw [hloop]; exact he, hremoved⟩
  | keep hloop _ => exact hs.between_batch rfl rfl rfl rfl rfl (by rw [hloop]; rfl)
  | remove hloop hremoved _ => exact hs.remove hloop hremoved
  | callbackUnregisters hl hloop he =>
    rw [hl] at hguard
    exact hs.callbackUnregisters howned hguard hloop he
  | register _ hp _ => exact hs.register howned hp
  | added hpc => exact hs.add howned hpc
  | addFailed hpc =>
    refine hs.goto rfl rfl rfl rfl rfl (fun _ h _ => h) ?_ ?_ ?_ <;> rw [hpc]
    · exact fun e he => he
    · exact fun e he => he
    · exact fun e _ he => he
  | @unregister t e hpc he =>
    refine hs.goto rfl rfl rfl rfl rfl (fun _ h _ => (List.mem_filter.mp h).1)
      (fun _ => of_none) (fun _ => of_none) ?_
    rintro e' hnot ⟨⟩
    exact absurd he hnot
  | delete hpc =>
    refine hs.goto rfl rfl rfl rfl rfl (fun _ h _ => h) (fun _ => of_none) (fun _ => of_none) ?_
    rw [hpc]
    exact fun e _ he => he
  | lockList hpc hlock =>
    refine hs.goto rfl rfl rfl rfl rfl (fun _ h _ => h) (fun _ => of_none) (fun _ => of_none) ?_
    rw [hpc]
    exact fun e _ he => he
  | @append t e hpc =>
    refine hs.thread rfl rfl rfl (fun _ h => List.mem_append_left _ h) (fun _ h _ => h)
      (fun _ h _ => h) (fun _ _ h _ _ _ => h) ?_ (fun _ _ => of_none) ?_
    · rintro e' - ⟨⟩
      refine .inr ⟨List.mem_append_right _ (List.mem_singleton_self _), fun hchosen => ?_⟩
      exact hlocked.not_both (Loop.holdsList_of_chosen hchosen) (by rw [hpc]; rfl)
    · rw [hpc]
      exact fun e _ _ he => he
  | unlockAppended hpc =>
    refine hs.goto rfl rfl rfl rfl rfl (fun _ h _ => h) ?_ (fun _ => of_none) ?_ <;> rw [hpc]
    · exact fun e he => he
    · exact fun e _ he => he
  | waitForObject hpc hobject hlock => exact hs.waitForObject hpc hobject hlock
  | gotObject hpc hobject => exact hs.gotObject howned hpc hobject
  | release hpc _ _ _ => exact hs.release howned hpc

end Served

variable [DecidableEq T]

theorem Owned.step {l : Label T} (hs : Owned s) (hserved : Served s) (h : Effect s l s') :
    Owned s' := by
  cases h with
  | rest hbetween hloop => exact hs.congr_loop rfl rfl rfl rfl rfl
  | lockClear hloop hlock => exact hs.congr_loop rfl rfl rfl rfl rfl
  | clear hloop => exact hs.congr_loop rfl rfl rfl rfl rfl
  | unlockCleared hloop => exact hs.congr_loop rfl rfl rfl rfl rfl
  | startWait hloop => exact hs.congr_loop rfl rfl rfl rfl rfl
  | wait hloop hnodup hreports => exact hs.congr_loop rfl rfl rfl rfl rfl
  | select hloop hlock => exact hs.congr_loop rfl rfl rfl rfl rfl
  | skip hloop => exact hs.congr_loop rfl rfl rfl rfl rfl
  | choose hloop hlist => exact hs.congr_loop rfl rfl rfl rfl rfl
  | unlockSkipped hloop => exact hs.congr_loop rfl rfl rfl rfl rfl
  | lockObject hloop hobject hlock =>
    exact hs.congr_loop (generations_setLock hobject _) rfl rfl rfl rfl
  | unlockList hloop => exact hs.congr_loop rfl rfl rfl rfl rfl
  | serve hlocked hlist hloop hremoved hactions => exact hs.congr_loop rfl rfl rfl rfl rfl
  | unlockObject hloop hobject =>
    exact hs.congr_loop (generations_setLock hobject _) rfl rfl rfl rfl
  | keep hloop hremoved => exact hs.congr_loop rfl rfl rfl rfl rfl
  | @remove report rest object hloop hremoved hobject =>
    obtain ⟨hlive, hhandle, htarget⟩ :=
      hserved.removing report.event ⟨by rw [hloop]; rfl, hremoved⟩
    exact (hs.free hlive hhandle htarget).congr_loop rfl rfl rfl rfl rfl
  | callbackUnregisters hl hloop he => exact hs.callbackUnregisters.congr_loop rfl rfl rfl rfl rfl
  | register hpc hp hobject => exact hs.register hpc hp hobject
  | added hpc => exact hs.added hpc
  | addFailed hpc =>
    exact hs.congr_goto rfl rfl rfl rfl rfl (by rw [hpc]; rfl) (by rw [hpc]; nofun)
  | unregister hpc he => exact hs.unregister hpc he
  | delete hpc => exact hs.delete hpc
  | lockList hpc hlock =>
    exact hs.congr_goto rfl rfl rfl rfl rfl (by rw [hpc]; rfl) (by rw [hpc]; nofun)
  | append hpc =>
    exact hs.congr_goto rfl rfl rfl rfl rfl (by rw [hpc]; rfl) (by rw [hpc]; nofun)
  | unlockAppended hpc =>
    exact hs.congr_goto rfl rfl rfl rfl rfl (by rw [hpc]; rfl) (by rw [hpc]; nofun)
  | waitForObject hpc hobject hlock =>
    exact hs.congr_goto (generations_setLock hobject _) rfl rfl rfl rfl (by rw [hpc]; rfl)
      (by rw [hpc]; nofun)
  | gotObject hpc hobject =>
    exact hs.congr_goto (generations_setLock hobject _) rfl rfl rfl rfl (by rw [hpc]; rfl)
      (by rw [hpc]; nofun)
  | @release t e object actions hpc hlist hobject hactions =>
    have hdel : ∀ e, s.pc t ≠ .unregisterDel e := by
      intro e he
      rw [he] at hpc
      cases hpc
    have htarget := Pc.target_of_withdrawn (Pc.withdrawn_of_owned hpc)
    exact (hs.release htarget hdel).congr_loop rfl rfl rfl rfl rfl

/-- What holds in every state as long as callbacks unregister only their own object. -/
structure Safe (s : State T) : Prop where
  list : ListLocked s
  owned : Owned s
  served : Served s

omit [DecidableEq T] in
theorem safe_reactorNew : Safe (reactorNew : State T) where
  list who := by cases who <;> simp [reactorNew, State.holdsList, Loop.holdsList, Pc.holdsList]
  owned := owned_reactorNew
  served := served_reactorNew

theorem Safe.step {l : Label T} (hs : Safe s) (hguard : OwnObject s l) (h : Effect s l s') :
    Safe s' where
  list := hs.list.step h
  owned := hs.owned.step hs.served h
  served := hs.served.step hs.list hs.owned hguard h

/-! ### No use after free -/

omit [DecidableEq T] in
theorem withObject_ne {k : Object T → Except Fault (State T)} (he : Live s.mem e)
    (hk : ∀ object, k object ≠ .error .useAfterFree) :
    s.withObject e.addr k ≠ .error .useAfterFree := by
  obtain ⟨object, hobject, -⟩ := he.exists_object
  rw [State.withObject, load, hobject]
  exact hk object

omit [DecidableEq T] in
theorem callBack_ne {wanted : Bool} {callback : Object T → Bool} {inside after : Loop}
    (he : Live s.mem e) :
    s.callBack e wanted callback inside after ≠ .error .useAfterFree := by
  unfold State.callBack
  split_ifs
  · refine withObject_ne he fun object => ?_
    split_ifs <;> nofun
  · nofun

namespace Safe

omit [DecidableEq T] in
theorem runReactor_ne (hs : Safe s) : s.runReactor ≠ .error .useAfterFree := by
  have hlocked := fun e => hs.served.live_of_locked (e := e)
  have hchosen := fun e he => (hs.served.chosen e he).1
  have hremoving := fun e he => (hs.served.removing e he).1
  unfold State.runReactor
  cases hloop : s.loop with
  | lockObject report rest =>
    refine withObject_ne (hchosen _ (by rw [hloop]; rfl)) fun object => ?_
    split_ifs <;> nofun
  | beforeRead report rest => exact callBack_ne (hlocked _ (by rw [hloop]; rfl))
  | beforeWrite report rest => exact callBack_ne (hlocked _ (by rw [hloop]; rfl))
  | unlockObject report rest => exact withObject_ne (hlocked _ (by rw [hloop]; rfl)) nofun
  | afterUnlock report rest =>
    dsimp only
    split_ifs with hremoved
    · exact withObject_ne (hremoving _ ⟨by rw [hloop]; rfl, hremoved⟩) nofun
    · nofun
  | events rest =>
    rcases rest with _ | ⟨_ | report, rest⟩
    · nofun
    · nofun
    · dsimp only
      split_ifs <;> nofun
  | next =>
    dsimp only
    split_ifs <;> nofun
  | contains report rest =>
    dsimp only
    split_ifs <;> nofun
  | _ => nofun

theorem runThread_ne (hs : Safe s) (t : T) : s.runThread t ≠ .error .useAfterFree := by
  have htarget := fun e he => (hs.owned.target t e he).1
  unfold State.runThread
  cases hpc : s.pc t with
  | registerFail e => exact withObject_ne (htarget e (by rw [hpc]; rfl)) nofun
  | unregisterDel e => exact withObject_ne (htarget e (by rw [hpc]; rfl)) nofun
  | unregisterLockList e =>
    dsimp only
    split_ifs <;> nofun
  | unregisterLockObject e =>
    refine withObject_ne (htarget e (by rw [hpc]; rfl)) fun object => ?_
    split_ifs <;> nofun
  | unregisterUnlockObject e => exact withObject_ne (htarget e (by rw [hpc]; rfl)) nofun
  | unregisterFree e => exact withObject_ne (htarget e (by rw [hpc]; rfl)) nofun
  | _ => nofun

theorem step_ne (hs : Safe s) (l : Label T) : s.step l ≠ .error .useAfterFree := by
  cases l with
  | run => exact hs.runReactor_ne
  | thread t => exact hs.runThread_ne t
  | callbackUnregisters e =>
    simp only [State.step]
    split_ifs with hcall
    · exact withObject_ne (hs.owned.handle e hcall.2) (by simp)
    · simp
  | wait reports =>
    simp only [State.step]
    split
    · split_ifs <;> simp
    · simp
  | add t success =>
    simp only [State.step]
    split
    · split_ifs <;> simp
    · simp
  | unregister t e =>
    simp only [State.step]
    split
    · split_ifs <;> simp
    · simp
  | _ =>
    simp only [State.step]
    split <;> simp

end Safe

end Reactor

end Osi
