import Osi.Reactor.Basic
import Osi.Transition.Threads

/-!
# What a step of the reactor does

The points of `run_reactor` and of the other threads are classified by what they may do
to an object, and every step is one of the effects below. The list lock is held by at
most one of them.
-/

namespace Osi

namespace Reactor

open Memory Transition

/-! ### Points of `run_reactor` -/

def Loop.reportable : Loop → List Event
  | .waiting reportable => reportable
  | _ => []

/-- The reported events that are not yet looked up in the list. -/
def Loop.batch : Loop → List Event
  | .events rest => eventsOf rest
  | .contains report rest => report.event :: eventsOf rest
  | .skip rest => eventsOf rest
  | .lockObject _ rest => eventsOf rest
  | .unlockList _ rest => eventsOf rest
  | .beforeRead _ rest => eventsOf rest
  | .inRead _ rest => eventsOf rest
  | .beforeWrite _ rest => eventsOf rest
  | .inWrite _ rest => eventsOf rest
  | .unlockObject _ rest => eventsOf rest
  | .afterUnlock _ rest => eventsOf rest
  | _ => []

/-- The object that was not on the list and is not yet locked. -/
def Loop.chosen : Loop → Option Event
  | .lockObject report _ => some report.event
  | _ => none

def Loop.locked : Loop → Option Event
  | .unlockList report _ => some report.event
  | .beforeRead report _ => some report.event
  | .inRead report _ => some report.event
  | .beforeWrite report _ => some report.event
  | .inWrite report _ => some report.event
  | .unlockObject report _ => some report.event
  | _ => none

def Loop.flagged : Loop → Option Event
  | .inRead report _ => some report.event
  | .beforeWrite report _ => some report.event
  | .inWrite report _ => some report.event
  | .unlockObject report _ => some report.event
  | .afterUnlock report _ => some report.event
  | _ => none

def Loop.holdsList : Loop → Bool
  | .clear => true
  | .unlockCleared => true
  | .contains _ _ => true
  | .skip _ => true
  | .lockObject _ _ => true
  | .unlockList _ _ => true
  | _ => false

def Loop.between : Loop → Bool
  | .idle => true
  | .next => true
  | .beforeWait => true
  | .waiting _ => true
  | .events _ => true
  | _ => false

/-! ### Points of the other threads -/

def Pc.target : Pc → Option Event
  | .idle => none
  | .registerAdd e => some e
  | .registerFail e => some e
  | .unregisterDel e => some e
  | .unregisterLockList e => some e
  | .unregisterAppend e => some e
  | .unregisterUnlockList e => some e
  | .unregisterLockObject e => some e
  | .unregisterUnlockObject e => some e
  | .unregisterFree e => some e

/-- The object that is not in the epoll set and that `run_reactor` cannot come to use
any more: not yet added, or on the list. -/
def Pc.withdrawn : Pc → Option Event
  | .registerAdd e => some e
  | .registerFail e => some e
  | .unregisterUnlockList e => some e
  | .unregisterLockObject e => some e
  | .unregisterUnlockObject e => some e
  | .unregisterFree e => some e
  | _ => none

/-- The object that `run_reactor` does not use: not yet added, or the wait for its lock
is over. -/
def Pc.owned : Pc → Option Event
  | .registerAdd e => some e
  | .registerFail e => some e
  | .unregisterUnlockObject e => some e
  | .unregisterFree e => some e
  | _ => none

def Pc.holdsList : Pc → Bool
  | .unregisterAppend _ => true
  | .unregisterUnlockList _ => true
  | _ => false

variable {T : Type*} [DecidableEq T] {s s' : State T}

/-! ### Effects -/

/-- What a step does. Steps that differ only in what no invariant depends on are one
effect: `rest` ends or starts a round, `serve` is a step on the way through the callbacks,
and `release` ends `reactor_unregister` or a failed `reactor_register`. -/
inductive Effect (s : State T) (l : Label T) : State T → Prop
  | rest {loop : Loop} {iterations i : ℕ} (hbetween : s.loop.between = true)
      (hloop : loop = .idle ∨ loop = .next ∨ loop = .beforeWait) :
      Effect s l { s with loop := loop, iterations := iterations, i := i }
  | lockClear (hloop : s.loop = .next) (hlock : s.listLock = none) :
      Effect s l { s with listLock := some none, loop := .clear }
  | clear (hloop : s.loop = .clear) :
      Effect s l { s with invalidationList := [], loop := .unlockCleared }
  | unlockCleared (hloop : s.loop = .unlockCleared) :
      Effect s l { s with listLock := none, loop := .beforeWait }
  | startWait (hloop : s.loop = .beforeWait) : Effect s l { s with loop := .waiting s.epoll }
  | wait {reportable : List Event} {reports : List (Option Report)}
      (hloop : s.loop = .waiting reportable) (hnodup : (eventsOf reports).Nodup)
      (hreports : ∀ e ∈ eventsOf reports, e ∈ reportable) :
      Effect s l { s with loop := .events reports }
  | select {report : Report} {rest : List (Option Report)}
      (hloop : s.loop = .events (some report :: rest)) (hlock : s.listLock = none) :
      Effect s l { s with listLock := some none, loop := .contains report rest }
  | skip {report : Report} {rest : List (Option Report)}
      (hloop : s.loop = .contains report rest) : Effect s l { s with loop := .skip rest }
  | choose {report : Report} {rest : List (Option Report)}
      (hloop : s.loop = .contains report rest)
      (hlist : report.event.addr ∉ s.invalidationList) :
      Effect s l { s with loop := .lockObject report rest }
  | unlockSkipped {rest : List (Option Report)} (hloop : s.loop = .skip rest) :
      Effect s l { s with listLock := none, loop := .events rest }
  | lockObject {report : Report} {rest : List (Option Report)} {object : Object T}
      (hloop : s.loop = .lockObject report rest)
      (hobject : s.mem report.event.addr = some object) (hlock : object.lock = none) :
      Effect s l (({ s with loop := .unlockList report rest }.setLock report.event.addr object
        (some none)).record [.accessed report.event.generation object.generation])
  | unlockList {report : Report} {rest : List (Option Report)}
      (hloop : s.loop = .unlockList report rest) :
      Effect s l { s with listLock := none, loop := .beforeRead report rest }
  | serve {e : Event} {loop : Loop} {removed : Bool} {actions : List (Action T)}
      (hlocked : s.loop.locked = some e) (hlist : s.loop.holdsList = false)
      (hloop : loop.locked = some e ∧ loop.flagged = some e ∧ loop.batch = s.loop.batch ∧
        loop.holdsList = false)
      (hremoved : removed = true ↔ s.loop.flagged = some e ∧ s.objectRemoved = true)
      (hactions : ∀ a ∈ actions, ∃ object, s.mem e.addr = some object ∧
        (a = .accessed e.generation object.generation ∨
          a = .invoked e.generation object.generation ∧
            (s.loop.flagged = some e → s.objectRemoved = false))) :
      Effect s l ({ s with loop := loop, objectRemoved := removed }.record actions)
  | unlockObject {report : Report} {rest : List (Option Report)} {object : Object T}
      (hloop : s.loop = .unlockObject report rest)
      (hobject : s.mem report.event.addr = some object) :
      Effect s l (({ s with loop := .afterUnlock report rest }.setLock report.event.addr object
        none).record [.accessed report.event.generation object.generation])
  | keep {report : Report} {rest : List (Option Report)}
      (hloop : s.loop = .afterUnlock report rest) (hremoved : s.objectRemoved = false) :
      Effect s l { s with loop := .events rest }
  | remove {report : Report} {rest : List (Option Report)} {object : Object T}
      (hloop : s.loop = .afterUnlock report rest) (hremoved : s.objectRemoved = true)
      (hobject : s.mem report.event.addr = some object) :
      Effect s l (({ s with loop := .events rest }.release report.event.addr).record
        [.freed none object.generation])
  | callbackUnregisters {e : Event} (hl : l = .callbackUnregisters e)
      (hloop : s.loop.inCallback = true) (he : e ∈ s.handles) :
      Effect s l ({ s with
        handles := s.handles.filter (· ≠ e)
        epoll := s.epoll.filter (· ≠ e)
        objectRemoved := true }.record [.unregistered none e.generation])
  | register {t : T} {p : Addr} {object : Object T} (hpc : s.pc t = .idle)
      (hp : s.mem p = none) (hobject : object.generation = s.nextGeneration) :
      Effect s l
        ({ s with
          mem := Function.update s.mem p (some object)
          nextGeneration := s.nextGeneration + 1 }.goto t (.registerAdd ⟨p, s.nextGeneration⟩))
  | added {t : T} {e : Event} (hpc : s.pc t = .registerAdd e) :
      Effect s l ({ s with
        epoll := s.epoll ++ [e]
        handles := s.handles ++ [e]
        loop := s.loop.added e }.goto t .idle)
  | addFailed {t : T} {e : Event} (hpc : s.pc t = .registerAdd e) :
      Effect s l (s.goto t (.registerFail e))
  | unregister {t : T} {e : Event} (hpc : s.pc t = .idle) (he : e ∈ s.handles) :
      Effect s l ({ s with handles := s.handles.filter (· ≠ e) }.goto t (.unregisterDel e))
  | delete {t : T} {e : Event} (hpc : s.pc t = .unregisterDel e) :
      Effect s l
        ({ s with epoll := s.epoll.filter (· ≠ e) }.goto t (.unregisterLockList e))
  | lockList {t : T} {e : Event} (hpc : s.pc t = .unregisterLockList e)
      (hlock : s.listLock = none) :
      Effect s l ({ s with listLock := some (some t) }.goto t (.unregisterAppend e))
  | append {t : T} {e : Event} (hpc : s.pc t = .unregisterAppend e) :
      Effect s l ({ s with invalidationList := s.invalidationList ++ [e.addr] }.goto t
        (.unregisterUnlockList e))
  | unlockAppended {t : T} {e : Event} (hpc : s.pc t = .unregisterUnlockList e) :
      Effect s l ({ s with listLock := none }.goto t (.unregisterLockObject e))
  | waitForObject {t : T} {e : Event} {object : Object T}
      (hpc : s.pc t = .unregisterLockObject e) (hobject : s.mem e.addr = some object)
      (hlock : object.lock = none) :
      Effect s l ((s.setLock e.addr object (some (some t))).goto t (.unregisterUnlockObject e))
  | gotObject {t : T} {e : Event} {object : Object T}
      (hpc : s.pc t = .unregisterUnlockObject e) (hobject : s.mem e.addr = some object) :
      Effect s l ((s.setLock e.addr object none).goto t (.unregisterFree e))
  | release {t : T} {e : Event} {object : Object T} {actions : List (Action T)}
      (hpc : (s.pc t).owned = some e) (hlist : (s.pc t).holdsList = false)
      (hobject : s.mem e.addr = some object)
      (hactions : actions = [] ∨ actions = [.unregistered (some t) e.generation]) :
      Effect s l (((s.release e.addr).goto t .idle).record
        (.freed (some t) object.generation :: actions))

omit [DecidableEq T] in
theorem withObject_eq_ok {p : Addr} {k : Object T → Except Fault (State T)}
    (h : s.withObject p k = .ok s') : ∃ object, s.mem p = some object ∧ k object = .ok s' := by
  unfold State.withObject load at h
  split at h
  · cases h
  · rename_i object hobject
    exact ⟨object, hobject, h⟩

theorem effect_of_callBack {l : Label T} {e : Event} {removed wanted : Bool}
    {callback : Object T → Bool} {inside after : Loop}
    (h : { s with objectRemoved := removed }.callBack e wanted callback inside after = .ok s')
    (hlocked : s.loop.locked = some e) (hlist : s.loop.holdsList = false)
    (hloop : ∀ loop, loop = inside ∨ loop = after → loop.locked = some e ∧
      loop.flagged = some e ∧ loop.batch = s.loop.batch ∧ loop.holdsList = false)
    (hremoved : removed = true ↔ s.loop.flagged = some e ∧ s.objectRemoved = true)
    (hwanted : wanted = true → s.loop.flagged = some e → s.objectRemoved = false) :
    Effect s l s' := by
  unfold State.callBack at h
  split_ifs at h with hw
  · obtain ⟨object, hobject, h⟩ := withObject_eq_ok h
    split_ifs at h
    · cases h
      refine .serve hlocked hlist (hloop _ (.inl rfl)) hremoved fun a ha => ⟨object, hobject, ?_⟩
      rcases List.mem_cons.mp ha with rfl | ha
      · exact .inl rfl
      · exact .inr ⟨List.mem_singleton.mp ha, hwanted hw⟩
    · cases h
      refine .serve hlocked hlist (hloop _ (.inr rfl)) hremoved fun a ha => ⟨object, hobject, ?_⟩
      exact .inl (List.mem_singleton.mp ha)
  · cases h
    have hserve : Effect s l (({ s with loop := after, objectRemoved := removed }).record []) :=
      .serve hlocked hlist (hloop _ (.inr rfl)) hremoved nofun
    simpa only [State.record, List.append_nil] using hserve

theorem effect_of_return {l : Label T} {e : Event} {loop : Loop}
    (hlocked : s.loop.locked = some e) (hlist : s.loop.holdsList = false)
    (hflagged : s.loop.flagged = some e)
    (hloop : loop.locked = some e ∧ loop.flagged = some e ∧ loop.batch = s.loop.batch ∧
      loop.holdsList = false) : Effect s l { s with loop := loop } := by
  have hserve : Effect s l
      (({ s with loop := loop, objectRemoved := s.objectRemoved }).record []) :=
    .serve hlocked hlist hloop ⟨fun hremoved => ⟨hflagged, hremoved⟩, And.right⟩ nofun
  simpa only [State.record, List.append_nil] using hserve

theorem effect_of_runReactor {l : Label T} (h : s.runReactor = .ok s') : Effect s l s' := by
  unfold State.runReactor at h
  split at h
  · cases h
  · rename_i hloop
    split_ifs at h with hi hlock
    · cases h
      exact .lockClear hloop (Option.isNone_iff_eq_none.mp hlock)
    · cases h
      exact .rest (by rw [hloop]; rfl) (.inl rfl)
  · rename_i hloop
    cases h
    exact .clear hloop
  · rename_i hloop
    cases h
    exact .unlockCleared hloop
  · rename_i hloop
    cases h
    exact .startWait hloop
  · cases h
  · rename_i hloop
    cases h
    exact .rest (by rw [hloop]; rfl) (.inr (.inl rfl))
  · rename_i hloop
    cases h
    exact .rest (by rw [hloop]; rfl) (.inl rfl)
  · rename_i report rest hloop
    split_ifs at h with hlock
    cases h
    exact .select hloop (Option.isNone_iff_eq_none.mp hlock)
  · rename_i report rest hloop
    split_ifs at h with hlist
    · cases h
      exact .skip hloop
    · cases h
      exact .choose hloop hlist
  · rename_i rest hloop
    cases h
    exact .unlockSkipped hloop
  · rename_i report rest hloop
    obtain ⟨object, hobject, h⟩ := withObject_eq_ok h
    split_ifs at h with hlock
    cases h
    exact .lockObject hloop hobject (Option.isNone_iff_eq_none.mp hlock)
  · rename_i report rest hloop
    cases h
    exact .unlockList hloop
  · rename_i report rest hloop
    refine effect_of_callBack h (by rw [hloop]; rfl) (by rw [hloop]; rfl) ?_ ?_ ?_
    · rintro loop (rfl | rfl)
      · exact ⟨rfl, rfl, by rw [hloop]; rfl, rfl⟩
      · exact ⟨rfl, rfl, by rw [hloop]; rfl, rfl⟩
    · rw [hloop]
      exact ⟨nofun, fun hflagged => nomatch hflagged.1⟩
    · intro _ hflagged
      rw [hloop] at hflagged
      cases hflagged
  · rename_i report rest hloop
    cases h
    exact effect_of_return (by rw [hloop]; rfl) (by rw [hloop]; rfl) (by rw [hloop]; rfl)
      ⟨rfl, rfl, by rw [hloop]; rfl, rfl⟩
  · rename_i report rest hloop
    have hcall : { s with objectRemoved := s.objectRemoved }.callBack report.event
        (!s.objectRemoved && report.writable) Object.writeReady (.inWrite report rest)
        (.unlockObject report rest) = .ok s' := h
    refine effect_of_callBack hcall (by rw [hloop]; rfl) (by rw [hloop]; rfl) ?_ ?_ ?_
    · rintro loop (rfl | rfl)
      · exact ⟨rfl, rfl, by rw [hloop]; rfl, rfl⟩
      · exact ⟨rfl, rfl, by rw [hloop]; rfl, rfl⟩
    · rw [hloop]
      exact ⟨fun hremoved => ⟨rfl, hremoved⟩, And.right⟩
    · intro hwanted _
      simpa using (Bool.and_eq_true_iff.mp hwanted).1
  · rename_i report rest hloop
    cases h
    exact effect_of_return (by rw [hloop]; rfl) (by rw [hloop]; rfl) (by rw [hloop]; rfl)
      ⟨rfl, rfl, by rw [hloop]; rfl, rfl⟩
  · rename_i report rest hloop
    obtain ⟨object, hobject, h⟩ := withObject_eq_ok h
    cases h
    exact .unlockObject hloop hobject
  · rename_i report rest hloop
    split_ifs at h with hremoved
    · obtain ⟨object, hobject, h⟩ := withObject_eq_ok h
      cases h
      exact .remove hloop hremoved hobject
    · cases h
      exact .keep hloop (Bool.eq_false_of_not_eq_true hremoved)

theorem effect_of_runThread {l : Label T} {t : T} (h : s.runThread t = .ok s') :
    Effect s l s' := by
  unfold State.runThread at h
  split at h
  · cases h
  · cases h
  · rename_i e hpc
    obtain ⟨object, hobject, h⟩ := withObject_eq_ok h
    cases h
    exact .release (by rw [hpc]; rfl) (by rw [hpc]; rfl) hobject (.inl rfl)
  · rename_i e hpc
    obtain ⟨object, -, h⟩ := withObject_eq_ok h
    cases h
    exact .delete hpc
  · rename_i e hpc
    split_ifs at h with hlock
    cases h
    exact .lockList hpc (Option.isNone_iff_eq_none.mp hlock)
  · rename_i e hpc
    cases h
    exact .append hpc
  · rename_i e hpc
    cases h
    exact .unlockAppended hpc
  · rename_i e hpc
    obtain ⟨object, hobject, h⟩ := withObject_eq_ok h
    split_ifs at h with hlock
    cases h
    exact .waitForObject hpc hobject (Option.isNone_iff_eq_none.mp hlock)
  · rename_i e hpc
    obtain ⟨object, hobject, h⟩ := withObject_eq_ok h
    cases h
    exact .gotObject hpc hobject
  · rename_i e hpc
    obtain ⟨object, hobject, h⟩ := withObject_eq_ok h
    cases h
    exact .release (by rw [hpc]; rfl) (by rw [hpc]; rfl) hobject (.inr rfl)

theorem effect_of_step {l : Label T} (h : s.step l = .ok s') : Effect s l s' := by
  cases l with
  | start iterations =>
    simp only [State.step] at h
    split at h
    · rename_i hloop
      cases h
      exact .rest (by rw [hloop]; rfl) (.inr (.inl rfl))
    · cases h
  | wait reports =>
    simp only [State.step] at h
    split at h
    · rename_i reportable hloop
      split_ifs at h with hreports
      cases h
      exact .wait hloop hreports.2.1 hreports.2.2
    · cases h
  | waitFails interrupted =>
    simp only [State.step] at h
    split at h
    · rename_i reportable hloop
      cases h
      refine .rest (by rw [hloop]; rfl) ?_
      cases interrupted
      · exact .inl rfl
      · exact .inr (.inr rfl)
    · cases h
  | run => exact effect_of_runReactor h
  | callbackUnregisters e =>
    simp only [State.step] at h
    split_ifs at h with hcall
    obtain ⟨object, -, h⟩ := withObject_eq_ok h
    cases h
    exact .callbackUnregisters rfl hcall.1 hcall.2
  | register t p readReady writeReady =>
    simp only [State.step] at h
    split at h
    · rename_i mem hpc halloc
      obtain ⟨⟨-, hp⟩, rfl⟩ := alloc_eq_some_iff.mp halloc
      cases h
      exact .register hpc hp rfl
    · cases h
  | add t success =>
    simp only [State.step] at h
    split at h
    · rename_i e hpc
      split_ifs at h
      · cases h
        exact .added hpc
      · cases h
        exact .addFailed hpc
    · cases h
  | unregister t e =>
    simp only [State.step] at h
    split at h
    · rename_i hpc
      split_ifs at h with he
      cases h
      exact .unregister hpc he
    · cases h
  | thread t => exact effect_of_runThread h

/-! ### The list lock -/

def State.holdsList (s : State T) : Option T → Bool
  | none => s.loop.holdsList
  | some t => (s.pc t).holdsList

theorem holdsList_of_loop {loop : Loop} (hpc : s'.pc = s.pc) (hloop : s'.loop = loop) :
    s'.holdsList = Function.update s.holdsList none loop.holdsList := by
  funext who
  cases who with
  | none => rw [Function.update_self, State.holdsList, hloop]
  | some t =>
    rw [Function.update_of_ne (Option.some_ne_none t), State.holdsList, State.holdsList, hpc]

theorem holdsList_of_pc {t : T} {pc : Pc} (hpc : s'.pc = Function.update s.pc t pc)
    (hloop : s'.loop.holdsList = s.loop.holdsList) :
    s'.holdsList = Function.update s.holdsList (some t) pc.holdsList := by
  funext who
  cases who with
  | none =>
    rw [Function.update_of_ne (Option.some_ne_none t).symm]
    exact hloop
  | some u =>
    by_cases hut : u = t
    · subst hut
      rw [Function.update_self, State.holdsList, hpc, Function.update_self]
    · rw [Function.update_of_ne fun heq => hut (Option.some.inj heq), State.holdsList,
        State.holdsList, hpc, Function.update_of_ne hut]

def ListLocked (s : State T) : Prop := Exclusive id s.listLock s.holdsList

namespace ListLocked

variable {who : Option T} {held : Bool}

theorem acquire (hs : ListLocked s)
    (hholds : s'.holdsList = Function.update s.holdsList who held) (hheld : held = true)
    (hlock : s.listLock = none) (hlock' : s'.listLock = some who) : ListLocked s' := by
  unfold ListLocked at hs ⊢
  rw [hlock] at hs
  rw [hlock', hholds]
  exact hs.acquire hheld

theorem release (hs : ListLocked s)
    (hholds : s'.holdsList = Function.update s.holdsList who held) (hheld : held = false)
    (hwho : s.holdsList who = true) (hlock' : s'.listLock = none) : ListLocked s' := by
  unfold ListLocked at hs ⊢
  rw [hlock', hholds]
  exact Exclusive.release hs hwho hheld

theorem move (hs : ListLocked s)
    (hholds : s'.holdsList = Function.update s.holdsList who held)
    (hwho : held = s.holdsList who) (hlock' : s'.listLock = s.listLock) : ListLocked s' := by
  unfold ListLocked at hs ⊢
  rw [hlock', hholds]
  exact Exclusive.move hs hwho

omit [DecidableEq T] in
theorem not_both (hs : ListLocked s) {t : T} (hloop : s.loop.holdsList = true)
    (hpc : (s.pc t).holdsList = true) : False :=
  (Option.some_ne_none t).symm (Exclusive.unique hs (t := none) (u := some t) hloop hpc)

theorem step {l : Label T} (hs : ListLocked s) (h : Effect s l s') : ListLocked s' := by
  cases h with
  | rest hbetween hloop =>
    refine hs.move (holdsList_of_loop rfl rfl) ?_ rfl
    have hbefore : s.loop.holdsList = false := by
      cases hs : s.loop <;> first | rfl | (rw [hs] at hbetween; cases hbetween)
    rcases hloop with rfl | rfl | rfl <;> exact hbefore.symm
  | lockClear hloop hlock => exact hs.acquire (holdsList_of_loop rfl rfl) rfl hlock rfl
  | clear hloop =>
    exact hs.move (holdsList_of_loop rfl rfl) (by rw [State.holdsList, hloop]; rfl) rfl
  | unlockCleared hloop =>
    exact hs.release (holdsList_of_loop rfl rfl) rfl (by rw [State.holdsList, hloop]; rfl) rfl
  | startWait hloop =>
    exact hs.move (holdsList_of_loop rfl rfl) (by rw [State.holdsList, hloop]; rfl) rfl
  | wait hloop hnodup hreports =>
    exact hs.move (holdsList_of_loop rfl rfl) (by rw [State.holdsList, hloop]; rfl) rfl
  | select hloop hlock => exact hs.acquire (holdsList_of_loop rfl rfl) rfl hlock rfl
  | skip hloop =>
    exact hs.move (holdsList_of_loop rfl rfl) (by rw [State.holdsList, hloop]; rfl) rfl
  | choose hloop hlist =>
    exact hs.move (holdsList_of_loop rfl rfl) (by rw [State.holdsList, hloop]; rfl) rfl
  | unlockSkipped hloop =>
    exact hs.release (holdsList_of_loop rfl rfl) rfl (by rw [State.holdsList, hloop]; rfl) rfl
  | lockObject hloop hobject hlock =>
    exact hs.move (holdsList_of_loop rfl rfl) (by rw [State.holdsList, hloop]; rfl) rfl
  | unlockList hloop =>
    exact hs.release (holdsList_of_loop rfl rfl) rfl (by rw [State.holdsList, hloop]; rfl) rfl
  | serve hlocked hlist hloop hremoved hactions =>
    exact hs.move (holdsList_of_loop rfl rfl) (hloop.2.2.2.trans hlist.symm) rfl
  | unlockObject hloop hobject =>
    exact hs.move (holdsList_of_loop rfl rfl) (by rw [State.holdsList, hloop]; rfl) rfl
  | keep hloop hremoved =>
    exact hs.move (holdsList_of_loop rfl rfl) (by rw [State.holdsList, hloop]; rfl) rfl
  | remove hloop hremoved hobject =>
    exact hs.move (holdsList_of_loop rfl rfl) (by rw [State.holdsList, hloop]; rfl) rfl
  | callbackUnregisters hl hloop he => exact hs
  | register hpc hp hobject =>
    exact hs.move (holdsList_of_pc rfl rfl) (by rw [State.holdsList, hpc]; rfl) rfl
  | added hpc =>
    refine hs.move (holdsList_of_pc rfl ?_) (by rw [State.holdsList, hpc]; rfl) rfl
    cases s.loop <;> rfl
  | addFailed hpc => exact hs.move (holdsList_of_pc rfl rfl) (by rw [State.holdsList, hpc]; rfl) rfl
  | unregister hpc he =>
    exact hs.move (holdsList_of_pc rfl rfl) (by rw [State.holdsList, hpc]; rfl) rfl
  | delete hpc => exact hs.move (holdsList_of_pc rfl rfl) (by rw [State.holdsList, hpc]; rfl) rfl
  | lockList hpc hlock => exact hs.acquire (holdsList_of_pc rfl rfl) rfl hlock rfl
  | append hpc => exact hs.move (holdsList_of_pc rfl rfl) (by rw [State.holdsList, hpc]; rfl) rfl
  | unlockAppended hpc =>
    exact hs.release (holdsList_of_pc rfl rfl) rfl (by rw [State.holdsList, hpc]; rfl) rfl
  | waitForObject hpc hobject hlock =>
    exact hs.move (holdsList_of_pc rfl rfl) (by rw [State.holdsList, hpc]; rfl) rfl
  | gotObject hpc hobject =>
    exact hs.move (holdsList_of_pc rfl rfl) (by rw [State.holdsList, hpc]; rfl) rfl
  | release hpc hlist hobject hactions =>
    exact hs.move (holdsList_of_pc rfl rfl) hlist.symm rfl

end ListLocked

end Reactor

end Osi
