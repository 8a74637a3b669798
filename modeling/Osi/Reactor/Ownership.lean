import Osi.Reactor.Effect

/-!
# Who may use and release an object

The handles of the clients and the objects that threads register or unregister are
allocated and different from each other, and no two threads have the same one. The epoll
set holds only handles and objects that are about to be deleted from it. An address
stands for one registration at a time, and each generation is at one address.
-/

namespace Osi

namespace Reactor

open Memory Transition

variable {T : Type*}

/-! ### Generations -/

def generations (mem : Heap (Object T)) (p : Addr) : Option ℕ :=
  (mem p).map Object.generation

def Live (mem : Heap (Object T)) (e : Event) : Prop :=
  generations mem e.addr = some e.generation

variable {mem : Heap (Object T)} {s s' : State T} {e e' : Event} {p : Addr} {object : Object T}

theorem generations_of_mem (h : mem p = some object) :
    generations mem p = some object.generation := by
  rw [generations, h]
  rfl

theorem Live.exists_object (h : Live mem e) :
    ∃ object, mem e.addr = some object ∧ object.generation = e.generation :=
  Option.map_eq_some_iff.mp h

theorem Live.generation (h : Live mem e) (hobject : mem e.addr = some object) :
    object.generation = e.generation :=
  Option.some.inj ((generations_of_mem hobject).symm.trans h)

theorem Live.eq (h : Live mem e) (h' : Live mem e') (haddr : e.addr = e'.addr) : e = e' := by
  have hgeneration : some e.generation = some e'.generation := by
    rw [← h, ← h', haddr]
  cases e
  cases e'
  cases haddr
  cases hgeneration
  rfl

theorem generations_update (value : Option (Object T)) :
    generations (Function.update mem p value) =
      Function.update (generations mem) p (value.map Object.generation) := by
  funext q
  by_cases hq : q = p
  · subst hq
    simp [generations]
  · simp [generations, Function.update_of_ne hq]

theorem generations_setLock (h : mem p = some object)
    (lock : Option (Option T)) :
    generations (Function.update mem p (some { object with lock := lock })) =
      generations mem := by
  rw [generations_update]
  exact Function.update_eq_self_iff.mpr (generations_of_mem h).symm

theorem generations_of_release {q : Addr} {g : ℕ}
    (h : generations (Function.update mem p none) q = some g) : generations mem q = some g := by
  by_cases hq : q = p
  · subst hq
    rw [generations_update, Function.update_self] at h
    cases h
  · rwa [generations_update, Function.update_of_ne hq] at h

theorem Live.alloc (h : Live mem e) (hp : mem p = none) :
    Live (Function.update mem p (some object)) e := by
  have hne : e.addr ≠ p := by
    rintro rfl
    rw [Live, generations, hp] at h
    cases h
  rw [Live, generations_update, Function.update_of_ne hne]
  exact h

theorem Live.setLock (h : Live mem e) (hobject : mem p = some object)
    (lock : Option (Option T)) :
    Live (Function.update mem p (some { object with lock := lock })) e := by
  rw [Live, generations_setLock hobject]
  exact h

theorem Live.release (h : Live mem e) (h' : Live mem e') (hne : e ≠ e') :
    Live (Function.update mem e'.addr none) e := by
  rw [Live, generations_update, Function.update_of_ne fun haddr => hne (h.eq h' haddr)]
  exact h

/-! ### Owners -/

theorem Pc.withdrawn_of_owned {pc : Pc} (h : pc.owned = some e) : pc.withdrawn = some e := by
  cases pc <;> first | exact h | cases h

theorem Pc.target_of_withdrawn {pc : Pc} (h : pc.withdrawn = some e) : pc.target = some e := by
  cases pc <;> first | exact h | cases h

structure Owned (s : State T) : Prop where
  fresh : ∀ p g, generations s.mem p = some g → g < s.nextGeneration
  injective : ∀ p q g, generations s.mem p = some g → generations s.mem q = some g → p = q
  handle : ∀ e ∈ s.handles, Live s.mem e
  target : ∀ t e, (s.pc t).target = some e → Live s.mem e ∧ e ∉ s.handles
  unique : ∀ t u e, (s.pc t).target = some e → (s.pc u).target = some e → t = u
  epoll : ∀ e ∈ s.epoll, e ∈ s.handles ∨ ∃ t, s.pc t = .unregisterDel e

theorem owned_reactorNew : Owned (reactorNew : State T) where
  fresh _ _ := nofun
  injective _ _ _ := nofun
  handle _ := nofun
  target _ _ := nofun
  unique _ _ _ := nofun
  epoll _ := nofun

namespace Owned

theorem congr (hs : Owned s) (hmem : generations s'.mem = generations s.mem)
    (hnext : s'.nextGeneration = s.nextGeneration) (hhandles : s'.handles = s.handles)
    (hepoll : s'.epoll = s.epoll) (htarget : ∀ t, (s'.pc t).target = (s.pc t).target)
    (hdel : ∀ t e, s.pc t = .unregisterDel e → s'.pc t = .unregisterDel e) : Owned s' where
  fresh := by
    rw [hmem, hnext]
    exact hs.fresh
  injective := by
    rw [hmem]
    exact hs.injective
  handle := by
    rw [hhandles]
    intro e he
    rw [Live, hmem]
    exact hs.handle e he
  target t e := by
    rw [Live, hmem, hhandles, htarget]
    exact hs.target t e
  unique t u e := by
    rw [htarget, htarget]
    exact hs.unique t u e
  epoll e he := by
    rw [hepoll] at he
    rw [hhandles]
    refine (hs.epoll e he).imp_right ?_
    rintro ⟨t, ht⟩
    exact ⟨t, hdel t e ht⟩

/-- A step of `run_reactor` that leaves the objects and the epoll set as they are. -/
theorem congr_loop (hs : Owned s) (hmem : generations s'.mem = generations s.mem)
    (hnext : s'.nextGeneration = s.nextGeneration) (hhandles : s'.handles = s.handles)
    (hepoll : s'.epoll = s.epoll) (hpc : s'.pc = s.pc) : Owned s' :=
  hs.congr hmem hnext hhandles hepoll (fun t => by rw [hpc]) fun t e ht => by rw [hpc, ht]

/-- An event in the epoll set has an allocated object. -/
theorem live_of_mem_epoll (hs : Owned s) (he : e ∈ s.epoll) : Live s.mem e := by
  rcases hs.epoll e he with hhandle | ⟨t, ht⟩
  · exact hs.handle e hhandle
  · exact (hs.target t e (by rw [ht]; rfl)).1

/-- An object that a thread has withdrawn is not in the epoll set. -/
theorem not_mem_epoll (hs : Owned s) {t : T} (ht : (s.pc t).withdrawn = some e) :
    e ∉ s.epoll := by
  intro he
  have htarget := Pc.target_of_withdrawn ht
  rcases hs.epoll e he with hhandle | ⟨u, hu⟩
  · exact (hs.target t e htarget).2 hhandle
  · obtain rfl := hs.unique t u e htarget (by rw [hu]; rfl)
    rw [hu] at ht
    cases ht

/-- The object that a thread owns is at another address than an allocated one that it
does not own. -/
theorem addr_ne (hs : Owned s) {t : T} (ht : (s.pc t).owned = some e)
    (hmem : s.mem e'.addr = some object) (hgeneration : object.generation = e'.generation)
    (hnot : (s.pc t).owned ≠ some e') : e'.addr ≠ e.addr := by
  intro haddr
  have hlive := (hs.target t e (Pc.target_of_withdrawn (Pc.withdrawn_of_owned ht))).1
  have hlive' : Live s.mem e' := by rw [Live, generations_of_mem hmem, hgeneration]
  rw [hlive'.eq hlive haddr] at hnot
  exact hnot ht

variable [DecidableEq T]

theorem congr_goto {t : T} {pc : Pc} (hs : Owned s)
    (hmem : generations s'.mem = generations s.mem)
    (hnext : s'.nextGeneration = s.nextGeneration) (hhandles : s'.handles = s.handles)
    (hepoll : s'.epoll = s.epoll) (hpc : s'.pc = Function.update s.pc t pc)
    (htarget : pc.target = (s.pc t).target) (hdel : ∀ e, s.pc t ≠ .unregisterDel e) :
    Owned s' := by
  refine hs.congr hmem hnext hhandles hepoll (fun u => ?_) fun u e hu => ?_
  · rw [hpc]
    by_cases hut : u = t
    · subst hut
      rw [Function.update_self, htarget]
    · rw [Function.update_of_ne hut]
  · have hut : u ≠ t := by
      rintro rfl
      exact hdel e hu
    rw [hpc, Function.update_of_ne hut, hu]

theorem unique_goto {t : T} {pc : Pc} (hs : Owned s) (hpc : s'.pc = Function.update s.pc t pc)
    (h : ∀ e, pc.target = some e →
      (s.pc t).target = some e ∨ ∀ u, (s.pc u).target ≠ some e) :
    ∀ u v e, (s'.pc u).target = some e → (s'.pc v).target = some e → u = v := by
  intro u v e hu hv
  rcases update_cases Pc.target hu hpc with ⟨hut, he⟩ | ⟨hut, hu⟩
  · rcases update_cases Pc.target hv hpc with ⟨hvt, -⟩ | ⟨hvt, hv⟩
    · exact hut.trans hvt.symm
    · rcases h e he with ht | hnone
      · exact absurd (hs.unique v t e hv ht) hvt
      · exact absurd hv (hnone v)
  · rcases update_cases Pc.target hv hpc with ⟨-, he⟩ | ⟨-, hv⟩
    · rcases h e he with ht | hnone
      · exact absurd (hs.unique u t e hu ht) hut
      · exact absurd hu (hnone u)
    · exact hs.unique u v e hu hv

/-- A thread that is not at `EPOLL_CTL_DEL` moves. -/
theorem epoll_goto {t : T} {pc : Pc} (hs : Owned s) (hpc : s'.pc = Function.update s.pc t pc)
    (hdel : ∀ e, s.pc t ≠ .unregisterDel e) (he : e ∈ s.epoll) :
    e ∈ s.handles ∨ ∃ u, s'.pc u = .unregisterDel e := by
  refine (hs.epoll e he).imp_right ?_
  rintro ⟨u, hu⟩
  have hut : u ≠ t := by
    rintro rfl
    exact hdel e hu
  rw [hpc]
  exact ⟨u, (Function.update_of_ne hut ..).trans hu⟩

theorem register {t : T} (hs : Owned s) (hpc : s.pc t = .idle) (hp : s.mem p = none)
    (hobject : object.generation = s.nextGeneration) :
    Owned ({ s with
      mem := Function.update s.mem p (some object)
      nextGeneration := s.nextGeneration + 1 }.goto t (.registerAdd ⟨p, s.nextGeneration⟩)) := by
  have hnew : generations (Function.update s.mem p (some object)) p = some s.nextGeneration := by
    rw [generations_update, Function.update_self, ← hobject]
    rfl
  have hcases : ∀ q g, generations (Function.update s.mem p (some object)) q = some g →
      q = p ∧ g = s.nextGeneration ∨ generations s.mem q = some g ∧ g < s.nextGeneration := by
    intro q g hq
    by_cases hqp : q = p
    · subst hqp
      exact .inl ⟨rfl, Option.some.inj (hq.symm.trans hnew)⟩
    · rw [generations_update, Function.update_of_ne hqp] at hq
      exact .inr ⟨hq, hs.fresh q g hq⟩
  -- the new generation is larger than those before
  have hfresh : ∀ e, Live s.mem e → e.generation ≠ s.nextGeneration :=
    fun e he => (hs.fresh e.addr e.generation he).ne
  refine ⟨?_, ?_, fun e he => (hs.handle e he).alloc hp, ?_, ?_, ?_⟩
  · intro q g hq
    change g < s.nextGeneration + 1
    rcases hcases q g hq with ⟨-, rfl⟩ | ⟨-, hg⟩
    · exact Nat.lt_succ_self _
    · exact Nat.lt_succ_of_lt hg
  · intro q r g hq hr
    rcases hcases q g hq with ⟨rfl, hg⟩ | ⟨hq, hg⟩
    · rcases hcases r g hr with ⟨rfl, -⟩ | ⟨-, hg'⟩
      · rfl
      · exact absurd hg hg'.ne
    · rcases hcases r g hr with ⟨-, hg'⟩ | ⟨hr, -⟩
      · exact absurd hg' hg.ne
      · exact hs.injective q r g hq hr
  · intro u e hu
    rcases update_cases Pc.target hu rfl with ⟨-, he⟩ | ⟨-, hu⟩
    · cases he
      exact ⟨hnew, fun hhandle => hfresh _ (hs.handle _ hhandle) rfl⟩
    · exact ⟨(hs.target u e hu).1.alloc hp, (hs.target u e hu).2⟩
  · refine hs.unique_goto rfl ?_
    rintro e ⟨⟩
    exact .inr fun u hu => hfresh _ (hs.target u _ hu).1 rfl
  · exact fun e he => hs.epoll_goto rfl (fun e' => by rw [hpc]; nofun) he

theorem added {t : T} (hs : Owned s) (hpc : s.pc t = .registerAdd e) :
    Owned ({ s with
      epoll := s.epoll ++ [e]
      handles := s.handles ++ [e]
      loop := s.loop.added e }.goto t .idle) := by
  have he : (s.pc t).target = some e := by
    rw [hpc]
    rfl
  refine ⟨hs.fresh, hs.injective, ?_, ?_, hs.unique_goto rfl nofun, ?_⟩
  · intro e' he'
    rcases List.mem_append.mp he' with he' | he'
    · exact hs.handle e' he'
    · rw [List.mem_singleton.mp he']
      exact (hs.target t e he).1
  · intro u e' hu
    rcases update_cases Pc.target hu rfl with ⟨-, hidle⟩ | ⟨hut, hu⟩
    · cases hidle
    · refine ⟨(hs.target u e' hu).1, ?_⟩
      rw [State.goto, List.mem_append, List.mem_singleton]
      rintro (hhandle | rfl)
      · exact (hs.target u e' hu).2 hhandle
      · exact hut (hs.unique u t e' hu he)
  · intro e' he'
    rcases List.mem_append.mp he' with he' | he'
    · refine (hs.epoll_goto rfl (fun e => by rw [hpc]; nofun) he').imp_left ?_
      exact List.mem_append_left _
    · exact .inl (List.mem_append_right _ he')

theorem unregister {t : T} (hs : Owned s) (hpc : s.pc t = .idle) (he : e ∈ s.handles) :
    Owned ({ s with handles := s.handles.filter (· ≠ e) }.goto t (.unregisterDel e)) := by
  refine ⟨hs.fresh, hs.injective, fun e' he' => hs.handle e' (List.mem_filter.mp he').1,
    ?_, ?_, ?_⟩
  · intro u e' hu
    rcases update_cases Pc.target hu rfl with ⟨-, he'⟩ | ⟨-, hu⟩
    · cases he'
      refine ⟨hs.handle e he, ?_⟩
      simp [State.goto]
    · obtain ⟨hlive, hnot⟩ := hs.target u e' hu
      exact ⟨hlive, fun he' => hnot (List.mem_filter.mp he').1⟩
  · refine hs.unique_goto rfl ?_
    rintro e' ⟨⟩
    exact .inr fun u hu => (hs.target u e hu).2 he
  · intro e' he'
    by_cases hee' : e' = e
    · subst hee'
      exact .inr ⟨t, Function.update_self ..⟩
    · refine (hs.epoll_goto rfl (fun e => by rw [hpc]; nofun) he').imp_left fun hhandle => ?_
      exact List.mem_filter.mpr ⟨hhandle, decide_eq_true hee'⟩

theorem delete {t : T} (hs : Owned s) (hpc : s.pc t = .unregisterDel e) :
    Owned ({ s with epoll := s.epoll.filter (· ≠ e) }.goto t (.unregisterLockList e)) := by
  have he : (s.pc t).target = some e := by
    rw [hpc]
    rfl
  refine ⟨hs.fresh, hs.injective, hs.handle, ?_, ?_, ?_⟩
  · intro u e' hu
    rcases update_cases Pc.target hu rfl with ⟨-, he'⟩ | ⟨-, hu⟩
    · cases he'
      exact hs.target t e he
    · exact hs.target u e' hu
  · refine hs.unique_goto rfl ?_
    rintro e' ⟨⟩
    exact .inl he
  · intro e' he'
    obtain ⟨he', hne⟩ := List.mem_filter.mp he'
    refine (hs.epoll e' he').imp_right ?_
    rintro ⟨u, hu⟩
    have hut : u ≠ t := by
      rintro rfl
      rw [hpc] at hu
      cases hu
      simp at hne
    exact ⟨u, (Function.update_of_ne hut ..).trans hu⟩

omit [DecidableEq T] in
theorem free (hs : Owned s) (hlive : Live s.mem e) (hhandle : e ∉ s.handles)
    (htarget : ∀ t, (s.pc t).target ≠ some e) : Owned (s.release e.addr) := by
  refine ⟨?_, ?_, ?_, ?_, hs.unique, hs.epoll⟩
  · intro q g hq
    exact hs.fresh q g (generations_of_release hq)
  · intro q r g hq hr
    exact hs.injective q r g (generations_of_release hq) (generations_of_release hr)
  · intro e' he'
    refine (hs.handle e' he').release hlive ?_
    rintro rfl
    exact hhandle he'
  · intro u e' hu
    refine ⟨(hs.target u e' hu).1.release hlive ?_, (hs.target u e' hu).2⟩
    rintro rfl
    exact htarget u hu

theorem release {t : T} (hs : Owned s) (he : (s.pc t).target = some e)
    (hdel : ∀ e, s.pc t ≠ .unregisterDel e) :
    Owned ((s.goto t .idle).release e.addr) := by
  obtain ⟨hlive, hnot⟩ := hs.target t e he
  have hleft : ∀ u e', ((s.goto t .idle).pc u).target = some e' →
      u ≠ t ∧ (s.pc u).target = some e' := by
    intro u e' hu
    rcases update_cases Pc.target hu rfl with ⟨-, hidle⟩ | hu
    · cases hidle
    · exact hu
  have hidle : Owned (s.goto t .idle) :=
    ⟨hs.fresh, hs.injective, hs.handle, fun u e' hu => hs.target u e' (hleft u e' hu).2,
      hs.unique_goto rfl nofun, fun e' he' => hs.epoll_goto rfl hdel he'⟩
  refine hidle.free hlive hnot fun u hu => ?_
  obtain ⟨hut, hu⟩ := hleft u e hu
  exact hut (hs.unique u t e hu he)

omit [DecidableEq T] in
theorem callbackUnregisters (hs : Owned s) :
    Owned { s with
      handles := s.handles.filter (· ≠ e)
      epoll := s.epoll.filter (· ≠ e)
      objectRemoved := true } := by
  refine ⟨hs.fresh, hs.injective, fun e' he' => hs.handle e' (List.mem_filter.mp he').1,
    ?_, hs.unique, ?_⟩
  · intro u e' hu
    obtain ⟨hlive, hnot⟩ := hs.target u e' hu
    exact ⟨hlive, fun he' => hnot (List.mem_filter.mp he').1⟩
  · intro e' he'
    obtain ⟨he', hne⟩ := List.mem_filter.mp he'
    refine (hs.epoll e' he').imp_left fun hhandle => ?_
    exact List.mem_filter.mpr ⟨hhandle, hne⟩

end Owned

end Reactor

end Osi
