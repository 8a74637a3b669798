import Osi.Reactor.Serving

/-!
# Unregistering an object

What happened to the registrations agrees with what is allocated. A freed object is gone
and no other ever has its generation, so it is freed once; when `reactor_unregister`
returns on another thread the object was freed, and after a callback has unregistered its
object `run_reactor` frees it. As `run_reactor` uses only allocated objects, an object is
not used any more once it is freed.
-/

namespace Osi

namespace Reactor

open Memory Transition

def Action.frees {T : Type*} (g : ℕ) : Action T → Bool
  | .freed _ object => object == g
  | _ => false

/-- The first action rules out that the second one comes after it: an object is not used
for an event after it was unregistered. Its own callback may unregister it and
`run_reactor` use it for the last time, but not call it back. -/
def Action.RulesOut {T : Type*} : Action T → Action T → Prop
  | .unregistered (some _) g, .accessed event object => event = g ∨ object = g
  | .unregistered _ g, .invoked event object => event = g ∨ object = g
  | _, _ => False

variable {T : Type*} {s s' : State T} {e : Event} {p : Addr} {object : Object T}

theorem Action.not_rulesOut {a b : Action T} (haccessed : ∀ x y, b ≠ .accessed x y)
    (hinvoked : ∀ x y, b ≠ .invoked x y) : ¬ a.RulesOut b := by
  intro h
  cases b with
  | accessed x y => exact haccessed x y rfl
  | invoked x y => exact hinvoked x y rfl
  | _ =>
    cases a with
    | unregistered who g => cases who <;> cases h
    | _ => cases h

def State.frees (s : State T) (g : ℕ) : ℕ := s.history.countP (Action.frees g)

structure Recorded (s : State T) : Prop where
  freed : ∀ who g, .freed who g ∈ s.history →
    g < s.nextGeneration ∧ ∀ p, generations s.mem p ≠ some g
  once : ∀ g, s.frees g ≤ 1
  unregistered : ∀ t g, .unregistered (some t) g ∈ s.history → 1 ≤ s.frees g
  removed : ∀ g, .unregistered none g ∈ s.history →
    1 ≤ s.frees g ∨ ∃ e, s.Removing e ∧ e.generation = g
  removing : ∀ e, s.Removing e → .unregistered none e.generation ∈ s.history
  freedByLoop : ∀ g, .freed none g ∈ s.history → .unregistered none g ∈ s.history
  sameObject : ∀ event object, .accessed event object ∈ s.history ∨
    .invoked event object ∈ s.history → event = object
  order : s.history.Pairwise fun a b => ¬ a.RulesOut b

theorem recorded_reactorNew : Recorded (reactorNew : State T) where
  freed _ _ := nofun
  once _ := Nat.zero_le _
  unregistered _ _ := nofun
  removed _ := nofun
  removing e he := by cases he.1
  freedByLoop _ := nofun
  sameObject _ _ h := by rcases h with h | h <;> cases h
  order := .nil

theorem frees_pos_iff {g : ℕ} : 1 ≤ s.frees g ↔ ∃ who, .freed who g ∈ s.history := by
  rw [State.frees, Nat.one_le_iff_ne_zero, ← Nat.pos_iff_ne_zero, List.countP_pos_iff]
  constructor
  · rintro ⟨a, ha, hfrees⟩
    cases a with
    | freed who object =>
      rw [← beq_iff_eq.mp hfrees]
      exact ⟨who, ha⟩
    | _ => cases hfrees
  · rintro ⟨who, hmem⟩
    exact ⟨_, hmem, beq_self_eq_true g⟩

theorem removing_iff_of_none (h : s.loop.flagged = none) (h' : s'.loop.flagged = none) (e : Event) :
    s'.Removing e ↔ s.Removing e := by
  rw [State.Removing, h', State.Removing, h]
  exact ⟨fun he => of_none he.1, fun he => of_none he.1⟩

theorem removing_iff_of_eq (hloop : s'.loop.flagged = s.loop.flagged)
    (hremoved : s'.objectRemoved = s.objectRemoved) (e : Event) :
    s'.Removing e ↔ s.Removing e := by
  rw [State.Removing, hloop, hremoved, State.Removing]

namespace Recorded

theorem frees_eq_zero (hs : Recorded s) (he : Live s.mem e) : s.frees e.generation = 0 := by
  by_contra hne
  obtain ⟨who, hmem⟩ := frees_pos_iff.mp (Nat.one_le_iff_ne_zero.mpr hne)
  exact (hs.freed who _ hmem).2 e.addr he

/-- An allocated object was not unregistered by another thread. -/
theorem not_unregistered (hs : Recorded s) (he : Live s.mem e) (t : T) :
    .unregistered (some t) e.generation ∉ s.history := by
  intro hmem
  have hpos := hs.unregistered t _ hmem
  rw [hs.frees_eq_zero he] at hpos
  cases hpos

theorem congr (hs : Recorded s) (hhistory : s'.history = s.history)
    (hmem : ∀ p g, generations s'.mem p = some g →
      generations s.mem p = some g ∨ s.nextGeneration ≤ g)
    (hnext : s.nextGeneration ≤ s'.nextGeneration)
    (hremoving : ∀ e, s'.Removing e ↔ s.Removing e) : Recorded s' := by
  have hfrees : ∀ g, s'.frees g = s.frees g := by
    intro g
    rw [State.frees, hhistory, State.frees]
  refine ⟨?_, ?_, ?_, ?_, ?_, ?_, ?_, ?_⟩ <;> simp only [hhistory, hfrees, hremoving]
  · intro who g hfreed
    obtain ⟨hlt, hgone⟩ := hs.freed who g hfreed
    refine ⟨hlt.trans_le hnext, fun p hp => ?_⟩
    rcases hmem p g hp with hp | hle
    · exact hgone p hp
    · exact absurd hlt (Nat.not_lt.mpr hle)
  · exact hs.once
  · exact hs.unregistered
  · exact hs.removed
  · exact hs.removing
  · exact hs.freedByLoop
  · exact hs.sameObject
  · exact hs.order

/-- `run_reactor` goes on outside of the callbacks. -/
theorem congr_loop (hs : Recorded s) (hhistory : s'.history = s.history) (hmem : s'.mem = s.mem)
    (hnext : s'.nextGeneration = s.nextGeneration) (h : s.loop.flagged = none)
    (h' : s'.loop.flagged = none) : Recorded s' := by
  refine hs.congr hhistory (fun p g hp => .inl ?_) hnext.ge (removing_iff_of_none h h')
  rwa [← hmem]

theorem congr_thread (hs : Recorded s) (hhistory : s'.history = s.history)
    (hmem : generations s'.mem = generations s.mem)
    (hnext : s'.nextGeneration = s.nextGeneration)
    (hloop : s'.loop.flagged = s.loop.flagged)
    (hremoved : s'.objectRemoved = s.objectRemoved) : Recorded s' := by
  refine hs.congr hhistory (fun p g hp => .inl ?_) hnext.ge (removing_iff_of_eq hloop hremoved)
  rwa [← hmem]

theorem use {actions : List (Action T)} (hs : Recorded s) (he : Live s.mem e)
    (hhistory : s'.history = s.history ++ actions)
    (hmem : generations s'.mem = generations s.mem)
    (hnext : s'.nextGeneration = s.nextGeneration)
    (hremoving : ∀ e, s'.Removing e ↔ s.Removing e)
    (hactions : ∀ a ∈ actions, a = .accessed e.generation e.generation ∨
      a = .invoked e.generation e.generation ∧ ∀ e', ¬ s.Removing e') : Recorded s' := by
  have hold : ∀ a, (∀ x y, a ≠ .accessed x y ∧ a ≠ .invoked x y) → a ∈ s'.history →
      a ∈ s.history := by
    intro a hne ha
    rw [hhistory, List.mem_append] at ha
    refine ha.resolve_right fun ha => ?_
    rcases hactions a ha with rfl | ⟨rfl, -⟩
    · exact (hne _ _).1 rfl
    · exact (hne _ _).2 rfl
  have hsub : ∀ a ∈ s.history, a ∈ s'.history := by
    intro a ha
    rw [hhistory]
    exact List.mem_append_left _ ha
  have hfrees : ∀ g, s'.frees g = s.frees g := by
    intro g
    rw [State.frees, hhistory, List.countP_append, ← State.frees, Nat.add_eq_left,
      List.countP_eq_zero]
    intro a ha
    rcases hactions a ha with rfl | ⟨rfl, -⟩ <;> nofun
  refine ⟨?_, fun g => hfrees g ▸ hs.once g, ?_, ?_, ?_, ?_, ?_, ?_⟩
  · intro who g hfreed
    rw [hmem, hnext]
    exact hs.freed who g (hold _ (fun _ _ => ⟨nofun, nofun⟩) hfreed)
  · intro t g hmem
    rw [hfrees]
    exact hs.unregistered t g (hold _ (fun _ _ => ⟨nofun, nofun⟩) hmem)
  · intro g hmem
    simp only [hfrees, hremoving]
    exact hs.removed g (hold _ (fun _ _ => ⟨nofun, nofun⟩) hmem)
  · intro e he
    exact hsub _ (hs.removing e ((hremoving e).mp he))
  · intro g hmem
    exact hsub _ (hs.freedByLoop g (hold _ (fun _ _ => ⟨nofun, nofun⟩) hmem))
  · intro event object hmem
    simp only [hhistory, List.mem_append] at hmem
    grind [hs.sameObject event object]
  · rw [hhistory, List.pairwise_append]
    refine ⟨hs.order, ?_, ?_⟩
    · refine List.pairwise_of_forall_mem_list fun a ha b _ => ?_
      rcases hactions a ha with rfl | ⟨rfl, -⟩ <;> nofun
    · intro a ha b hb hrules
      cases a with
      | unregistered who g =>
        have hg : e.generation = g ∧ (who = none → ∀ e', ¬ s.Removing e') := by
          rcases hactions b hb with rfl | ⟨rfl, hnot⟩
          · cases who with
            | none => cases hrules
            | some t => exact ⟨or_self_iff.mp hrules, nofun⟩
          · exact ⟨by cases who <;> exact or_self_iff.mp hrules, fun _ => hnot⟩
        obtain ⟨rfl, hnot⟩ := hg
        cases who with
        | none =>
          rcases hs.removed _ ha with hpos | ⟨e', he', -⟩
          · rw [hs.frees_eq_zero he] at hpos
            cases hpos
          · exact hnot rfl e' he'
        | some t => exact hs.not_unregistered he t ha
      | _ => cases hrules

theorem free {who : Option T} {actions : List (Action T)} (hs : Recorded s)
    (howned : Owned s) (he : Live s.mem e)
    (hhistory : s'.history = s.history ++ .freed who e.generation :: actions)
    (hmem : s'.mem = Function.update s.mem e.addr none)
    (hnext : s'.nextGeneration = s.nextGeneration)
    (hactions : actions = [] ∨ ∃ t, actions = [.unregistered (some t) e.generation])
    (hwho : who = none → .unregistered none e.generation ∈ s.history)
    (hremoving : ∀ e', s'.Removing e' ↔ s.Removing e' ∧ e' ≠ e) : Recorded s' := by
  have hfrees : ∀ g, s'.frees g = s.frees g + if e.generation = g then 1 else 0 := by
    intro g
    have hrest : actions.countP (Action.frees g) = 0 := by
      rcases hactions with rfl | ⟨t, rfl⟩ <;> rfl
    rw [State.frees, hhistory, List.countP_append, List.countP_cons, hrest, Nat.zero_add,
      ← State.frees]
    simp [Action.frees]
  have hcases : ∀ a ∈ s'.history, a ∈ s.history ∨ a = .freed who e.generation ∨
      ∃ t, a = .unregistered (some t) e.generation := by
    intro a ha
    rw [hhistory, List.mem_append, List.mem_cons] at ha
    refine ha.imp_right (Or.imp_right fun ha => ?_)
    rcases hactions with rfl | ⟨t, rfl⟩
    · cases ha
    · exact ⟨t, List.mem_singleton.mp ha⟩
  have hsub : ∀ a ∈ s.history, a ∈ s'.history := by
    intro a ha
    rw [hhistory]
    exact List.mem_append_left _ ha
  have hself : s'.frees e.generation = 1 := by
    rw [hfrees, hs.frees_eq_zero he, if_pos rfl]
  refine ⟨?_, ?_, ?_, ?_, ?_, ?_, ?_, ?_⟩
  · intro who' g hfreed
    rw [hmem, hnext]
    rcases hcases _ hfreed with hold | hnew | ⟨t, hnew⟩
    · obtain ⟨hlt, hgone⟩ := hs.freed who' g hold
      exact ⟨hlt, fun p hp => hgone p (generations_of_release hp)⟩
    · cases hnew
      refine ⟨howned.fresh _ _ he, fun p hp => ?_⟩
      -- the generation was at this address only
      obtain rfl := howned.injective p e.addr _ (generations_of_release hp) he
      rw [generations_update, Function.update_self] at hp
      cases hp
    · cases hnew
  · intro g
    by_cases hg : e.generation = g
    · exact (hg ▸ hself).le
    · rw [hfrees, if_neg hg]
      exact hs.once g
  · intro t g hmem
    rcases hcases _ hmem with hold | hnew | ⟨u, hnew⟩
    · rw [hfrees]
      exact Nat.le_add_right_of_le (hs.unregistered t g hold)
    · cases hnew
    · cases hnew
      exact hself.ge
  · intro g hmem
    rcases hcases _ hmem with hold | hnew | ⟨u, hnew⟩
    · rcases hs.removed g hold with hpos | ⟨e', he', rfl⟩
      · rw [hfrees]
        exact .inl (Nat.le_add_right_of_le hpos)
      · by_cases hee : e' = e
        · rw [hee]
          exact .inl hself.ge
        · exact .inr ⟨e', (hremoving e').mpr ⟨he', hee⟩, rfl⟩
    · cases hnew
    · cases hnew
  · intro e' he'
    exact hsub _ (hs.removing e' ((hremoving e').mp he').1)
  · intro g hfreed
    rcases hcases _ hfreed with hold | hnew | ⟨u, hnew⟩
    · exact hsub _ (hs.freedByLoop g hold)
    · cases hnew
      exact hsub _ (hwho rfl)
    · cases hnew
  · intro event object hmem
    refine hs.sameObject event object (hmem.imp (fun h => ?_) fun h => ?_)
    · exact (hcases _ h).resolve_right (by rintro (h | ⟨_, h⟩) <;> cases h)
    · exact (hcases _ h).resolve_right (by rintro (h | ⟨_, h⟩) <;> cases h)
  · rw [hhistory, List.pairwise_append]
    have hquiet : ∀ a b : Action T, b ∈ Action.freed who e.generation :: actions →
        ¬ a.RulesOut b := by
      intro a b hb
      rcases List.mem_cons.mp hb with rfl | hb
      · exact Action.not_rulesOut nofun nofun
      · rcases hactions with rfl | ⟨t, rfl⟩
        · cases hb
        · rw [List.mem_singleton.mp hb]
          exact Action.not_rulesOut nofun nofun
    exact ⟨hs.order, List.pairwise_of_forall_mem_list fun a _ b => hquiet a b,
      fun a _ b => hquiet a b⟩

theorem callbackUnregisters (hs : Recorded s) (he : s'.Removing e)
    (hhistory : s'.history = s.history ++ [.unregistered none e.generation])
    (hmem : s'.mem = s.mem) (hnext : s'.nextGeneration = s.nextGeneration)
    (hremoving : ∀ e, s.Removing e → s'.Removing e) : Recorded s' := by
  have hcases : ∀ a ∈ s'.history, a ∈ s.history ∨ a = .unregistered none e.generation := by
    intro a ha
    rw [hhistory, List.mem_append, List.mem_singleton] at ha
    exact ha
  have hfrees : ∀ g, s'.frees g = s.frees g := by
    intro g
    rw [State.frees, hhistory, List.countP_append, ← State.frees]
    rfl
  refine ⟨?_, fun g => hfrees g ▸ hs.once g, ?_, ?_, ?_, ?_, ?_, ?_⟩
  · intro who g hfreed
    rw [hmem, hnext]
    exact hs.freed who g ((hcases _ hfreed).resolve_right nofun)
  · intro t g hmem
    rw [hfrees]
    exact hs.unregistered t g ((hcases _ hmem).resolve_right nofun)
  · intro g hmem
    rw [hfrees]
    rcases hcases _ hmem with hold | hnew
    · refine (hs.removed g hold).imp_right ?_
      rintro ⟨e', he', hg⟩
      exact ⟨e', hremoving e' he', hg⟩
    · cases hnew
      exact .inr ⟨e, he, rfl⟩
  · intro e' he'
    obtain rfl : e' = e := Option.some.inj (he'.1.symm.trans he.1)
    rw [hhistory]
    exact List.mem_append_right _ (List.mem_singleton_self _)
  · intro g hfreed
    rw [hhistory]
    exact List.mem_append_left _ (hs.freedByLoop g ((hcases _ hfreed).resolve_right nofun))
  · intro event object hmem
    refine hs.sameObject event object (hmem.imp (fun h => ?_) fun h => ?_)
    · exact (hcases _ h).resolve_right nofun
    · exact (hcases _ h).resolve_right nofun
  · rw [hhistory, List.pairwise_append]
    refine ⟨hs.order, List.pairwise_singleton _ _, fun a _ b hb => ?_⟩
    rw [List.mem_singleton.mp hb]
    exact Action.not_rulesOut nofun nofun

variable [DecidableEq T]

theorem step {l : Label T} (hsafe : Safe s) (hs : Recorded s) (hguard : OwnObject s l)
    (h : Effect s l s') : Recorded s' := by
  cases h with
  | @rest loop iterations i hbetween hloop =>
    refine hs.congr_loop rfl rfl rfl ?_ ?_
    · cases hs : s.loop <;> first | rfl | (rw [hs] at hbetween; cases hbetween)
    · rcases hloop with rfl | rfl | rfl <;> rfl
  | lockClear hloop hlock => exact hs.congr_loop rfl rfl rfl (by rw [hloop]; rfl) rfl
  | clear hloop => exact hs.congr_loop rfl rfl rfl (by rw [hloop]; rfl) rfl
  | unlockCleared hloop => exact hs.congr_loop rfl rfl rfl (by rw [hloop]; rfl) rfl
  | startWait hloop => exact hs.congr_loop rfl rfl rfl (by rw [hloop]; rfl) rfl
  | wait hloop hnodup hreports => exact hs.congr_loop rfl rfl rfl (by rw [hloop]; rfl) rfl
  | select hloop hlock => exact hs.congr_loop rfl rfl rfl (by rw [hloop]; rfl) rfl
  | skip hloop => exact hs.congr_loop rfl rfl rfl (by rw [hloop]; rfl) rfl
  | choose hloop hlist => exact hs.congr_loop rfl rfl rfl (by rw [hloop]; rfl) rfl
  | unlockSkipped hloop => exact hs.congr_loop rfl rfl rfl (by rw [hloop]; rfl) rfl
  | @lockObject report rest object hloop hobject hlock =>
    have hlive := (hsafe.served.chosen report.event (by rw [hloop]; rfl)).1
    refine hs.use hlive rfl (generations_setLock hobject _) rfl
      (removing_iff_of_none (by rw [hloop]; rfl) rfl) fun a ha => .inl ?_
    rw [List.mem_singleton.mp ha, hlive.generation hobject]
  | unlockList hloop => exact hs.congr_loop rfl rfl rfl (by rw [hloop]; rfl) rfl
  | @serve e loop removed actions he hlist hloop hremoved hactions =>
    have hlive := hsafe.served.live_of_locked he
    -- the flag is about the object that is locked
    have hflagged : ∀ e', s.Removing e' → s.loop.flagged = some e ∧ s.objectRemoved = true := by
      rintro e' ⟨he', hremoved'⟩
      cases (Loop.served_of_locked he).symm.trans (Loop.served_of_flagged he')
      exact ⟨he', hremoved'⟩
    refine hs.use hlive rfl rfl rfl ?_ ?_
    · intro e'
      constructor
      · rintro ⟨he', hremoved'⟩
        cases hloop.2.1.symm.trans he'
        exact hremoved.mp hremoved'
      · intro he'
        have he'' := hflagged e' he'
        cases he''.1.symm.trans he'.1
        exact ⟨hloop.2.1, hremoved.mpr he''⟩
    · intro a ha
      obtain ⟨object, hobject, ha⟩ := hactions a ha
      rw [hlive.generation hobject] at ha
      refine ha.imp_right (And.imp_right fun hnot e' he' => ?_)
      obtain ⟨hflag, hremoved'⟩ := hflagged e' he'
      rw [hnot hflag] at hremoved'
      cases hremoved'
  | @unlockObject report rest object hloop hobject =>
    have hlive := hsafe.served.live_of_locked (e := report.event) (by rw [hloop]; rfl)
    refine hs.use hlive rfl (generations_setLock hobject _) rfl
      (removing_iff_of_eq (by rw [hloop]; rfl) rfl) fun a ha => .inl ?_
    rw [List.mem_singleton.mp ha, hlive.generation hobject]
  | keep hloop hremoved =>
    refine hs.congr rfl (fun _ _ h => .inl h) le_rfl fun e => ⟨fun he => of_none he.1, ?_⟩
    intro he
    cases he.2.symm.trans hremoved
  | @remove report rest object hloop hremoved hobject =>
    have hremoving : s.Removing report.event := ⟨by rw [hloop]; rfl, hremoved⟩
    have hlive := (hsafe.served.removing _ hremoving).1
    refine hs.free hsafe.owned hlive (congrArg (fun g => s.history ++ [.freed none g])
      (hlive.generation hobject)) rfl rfl (.inl rfl) (fun _ => hs.removing _ hremoving) ?_
    intro e'
    refine ⟨fun he' => of_none he'.1, ?_⟩
    rintro ⟨he', hne⟩
    exact absurd (Option.some.inj (he'.1.symm.trans hremoving.1)) hne
  | @callbackUnregisters e hl hloop he =>
    rw [hl] at hguard
    have hserved : s.loop.served = some e := hguard
    have hflagged : s.loop.flagged = some e := by
      cases hs : s.loop <;> rw [hs] at hloop hserved <;> first | exact hserved | cases hloop
    exact hs.callbackUnregisters ⟨hflagged, rfl⟩ rfl rfl rfl fun e' he' => ⟨he'.1, rfl⟩
  | @register t p object hpc hp hobject =>
    refine hs.congr rfl (fun q g hq => ?_) (Nat.le_succ _) (removing_iff_of_eq rfl rfl)
    change generations (Function.update s.mem p (some object)) q = some g at hq
    by_cases hqp : q = p
    · subst hqp
      rw [generations_update, Function.update_self] at hq
      exact .inr ((hobject.symm.trans (Option.some.inj hq)).le)
    · rw [generations_update, Function.update_of_ne hqp] at hq
      exact .inl hq
  | @added t e hpc =>
    refine hs.congr_thread rfl rfl rfl ?_ rfl
    change (s.loop.added e).flagged = s.loop.flagged
    rcases s.loop.added_eq e with hsame | ⟨reportable, hloop⟩
    · rw [hsame]
    · rw [hloop]
      rfl
  | addFailed hpc => exact hs.congr_thread rfl rfl rfl rfl rfl
  | unregister hpc he => exact hs.congr_thread rfl rfl rfl rfl rfl
  | delete hpc => exact hs.congr_thread rfl rfl rfl rfl rfl
  | lockList hpc hlock => exact hs.congr_thread rfl rfl rfl rfl rfl
  | append hpc => exact hs.congr_thread rfl rfl rfl rfl rfl
  | unlockAppended hpc => exact hs.congr_thread rfl rfl rfl rfl rfl
  | waitForObject hpc hobject hlock =>
    exact hs.congr_thread rfl (generations_setLock hobject _) rfl rfl rfl
  | gotObject hpc hobject => exact hs.congr_thread rfl (generations_setLock hobject _) rfl rfl rfl
  | @release t e object actions hpc hlist hobject hactions =>
    have htarget := Pc.target_of_withdrawn (Pc.withdrawn_of_owned hpc)
    have hlive := (hsafe.owned.target t e htarget).1
    have hgeneration := hlive.generation hobject
    refine hs.free hsafe.owned hlive (congrArg (fun g => s.history ++ .freed (some t) g :: actions)
      hgeneration) rfl rfl (hactions.imp_right fun h => ⟨t, h⟩) nofun fun e' => ?_
    refine ⟨fun he' => ⟨he', ?_⟩, And.left⟩
    rintro rfl
    exact (hsafe.served.removing e' he').2.2 t htarget

end Recorded

/-- What holds in every state of the runs in which callbacks unregister only their own
object. -/
theorem safe_of_run [DecidableEq T] {ls : List (Label T)}
    (h : Run (Guarded OwnObject (Next State.step)) reactorNew ls s) : Safe s ∧ Recorded s := by
  refine h.invariant (I := fun s => Safe s ∧ Recorded s) ?_
    ⟨safe_reactorNew, recorded_reactorNew⟩
  rintro s l s' ⟨hsafe, hrecorded⟩ ⟨hguard, hstep⟩
  have heffect := effect_of_step hstep
  exact ⟨hsafe.step hguard heffect, hrecorded.step hsafe hguard heffect⟩

theorem Recorded.not_mem_after (hs : Recorded s) {a b : Action T} {before after : List (Action T)}
    (hhistory : s.history = before ++ a :: after) (hrules : a.RulesOut b) : b ∉ after := by
  intro hb
  have horder := hs.order
  rw [hhistory, List.pairwise_append, List.pairwise_cons] at horder
  exact horder.2.1.1 b hb hrules

section

variable [DecidableEq T]

/-- However `run_reactor` and any number of other threads are interleaved, and whatever
addresses are used again: after `reactor_unregister` has returned, `run_reactor` does not
use the object or call it back; no event is delivered to an object that it was not reported
for; the object was freed exactly once; and nothing is used that is not allocated. -/
theorem unregister_from_other_thread {ls : List (Label T)}
    (h : Run (Next State.step) reactorNew ls s) (hls : ∀ e, .callbackUnregisters e ∉ ls) :
    (∀ t g before after, s.history = before ++ .unregistered (some t) g :: after →
        ∀ event object, event = g ∨ object = g →
          .accessed event object ∉ after ∧ .invoked event object ∉ after) ∧
      (∀ event object, .accessed event object ∈ s.history ∨ .invoked event object ∈ s.history →
        event = object) ∧
      (∀ t g, .unregistered (some t) g ∈ s.history → s.frees g = 1) ∧
      (∀ g, s.frees g ≤ 1) ∧
      ∀ l, s.step l ≠ .error .useAfterFree := by
  have hrun : Run (Guarded OwnObject (Next State.step)) reactorNew ls s := by
    induction h with
    | nil => exact .nil _
    | @snoc s' s'' ls l _ hlast ih =>
      refine .snoc (ih fun e he => hls e (List.mem_append_left _ he)) ⟨?_, hlast⟩
      cases l with
      | callbackUnregisters e => exact absurd (List.mem_append_right _ List.mem_cons_self) (hls e)
      | _ => trivial
  obtain ⟨hsafe, hrecorded⟩ := safe_of_run hrun
  refine ⟨?_, hrecorded.sameObject, fun t g hmem => ?_, hrecorded.once, hsafe.step_ne⟩
  · intro t g before after hhistory event object hg
    exact ⟨hrecorded.not_mem_after hhistory hg, hrecorded.not_mem_after hhistory hg⟩
  · exact (hrecorded.once g).antisymm (hrecorded.unregistered t g hmem)

end

/-- An object is unregistered and freed after it was reported, and its address is used
again before `run_reactor` comes to the event. -/
def staleEvent : List (Label Unit) :=
  List.flatten [[.register () 8 true false, .add () true, .start 0], .replicate 4 .run,
    [.unregister () ⟨8, 0⟩, .thread (), .wait [some ⟨⟨8, 0⟩, true, false⟩]],
    .replicate 6 (.thread ()), [.register () 8 true false, .add () true],
    .replicate 8 .run, [.wait [some ⟨⟨8, 1⟩, true, false⟩]], .replicate 5 .run]

theorem unregister_from_other_thread_staleEvent :
    ∃ s : State Unit,
      s.history = [.freed (some ()) 0, .unregistered (some ()) 0, .accessed 1 1,
        .accessed 1 1, .invoked 1 1] ∧
      s.frees 0 = 1 ∧ ∀ l, s.step l ≠ .error .useAfterFree := by
  have hend : ((exec (fun _ _ => true) State.step reactorNew staleEvent).any fun s =>
      decide (s.history = [.freed (some ()) 0, .unregistered (some ()) 0, .accessed 1 1,
        .accessed 1 1, .invoked 1 1])) = true := by
    decide +kernel
  obtain ⟨s, hs, hend⟩ := (Option.any_eq_true _ _).mp hend
  have hhistory := of_decide_eq_true hend
  obtain ⟨-, -, hfreed, -, hsafe⟩ := unregister_from_other_thread (Run.of_exec_true hs) (by
    intro e he
    simp [staleEvent] at he)
  refine ⟨s, hhistory, hfreed () 0 ?_, hsafe⟩
  rw [hhistory]
  decide

/-! ### Unregistering from a callback -/

/-- What callbacks unregister, and only that, is freed by `run_reactor`, once, when it has
served the object; a registered object is not freed; and an object is not called back after
it was unregistered. -/
structure RemovedExactly (s : State T) : Prop where
  freed : ∀ g, .freed none g ∈ s.history → .unregistered none g ∈ s.history
  once : ∀ g, .unregistered none g ∈ s.history →
    s.frees g = 1 ∨ s.frees g = 0 ∧ ∃ e, s.loop.served = some e ∧ e.generation = g
  registered : ∀ e ∈ s.handles, s.frees e.generation = 0
  notInvoked : ∀ who g before after, s.history = before ++ .unregistered who g :: after →
    ∀ event object, event = g ∨ object = g → .invoked event object ∉ after

/-- Whatever events are reported and whatever other threads do, as long as each callback
unregisters no other object than the one it is called for. -/
theorem unregister_from_callback [DecidableEq T] {ls : List (Label T)}
    (h : Run (Guarded OwnObject (Next State.step)) reactorNew ls s) :
    RemovedExactly s ∧ ∀ l, s.step l ≠ .error .useAfterFree := by
  obtain ⟨hsafe, hrecorded⟩ := safe_of_run h
  refine ⟨⟨hrecorded.freedByLoop, ?_, ?_, ?_⟩, hsafe.step_ne⟩
  · intro g hmem
    rcases hrecorded.removed g hmem with hpos | ⟨e, he, rfl⟩
    · exact .inl ((hrecorded.once g).antisymm hpos)
    · exact .inr ⟨hrecorded.frees_eq_zero (hsafe.served.removing e he).1, e,
        Loop.served_of_flagged he.1, rfl⟩
  · intro e he
    exact hrecorded.frees_eq_zero (hsafe.owned.handle e he)
  · intro who g before after hhistory event object hg
    refine hrecorded.not_mem_after hhistory ?_
    cases who <;> exact hg

def callbackOf (e : Event) : List (Label Unit) :=
  List.flatten [[.register () 8 true true, .add () true, .register () 16 true true, .add () true,
    .start 1], .replicate 4 .run, [.wait [some ⟨⟨8, 0⟩, true, true⟩, some ⟨⟨16, 1⟩, true, false⟩]],
    .replicate 5 .run, [.callbackUnregisters e]]

def ownObject : List (Label Unit) := callbackOf ⟨8, 0⟩ ++ List.replicate 15 .run

theorem unregister_from_callback_ownObject :
    ∃ s : State Unit, s.loop = .idle ∧ s.handles = [⟨16, 1⟩] ∧
      s.history = [.accessed 0 0, .accessed 0 0, .invoked 0 0, .unregistered none 0,
        .accessed 0 0, .freed none 0, .accessed 1 1, .accessed 1 1, .invoked 1 1,
        .accessed 1 1] ∧ RemovedExactly s := by
  have hend : ((exec (fun s l => decide (OwnObject s l)) State.step reactorNew ownObject).any
      fun s => decide (s.loop = .idle ∧ s.handles = [⟨16, 1⟩] ∧
        s.history = [.accessed 0 0, .accessed 0 0, .invoked 0 0, .unregistered none 0,
          .accessed 0 0, .freed none 0, .accessed 1 1, .accessed 1 1, .invoked 1 1,
          .accessed 1 1])) = true := by
    decide +kernel
  obtain ⟨s, hs, hend⟩ := (Option.any_eq_true _ _).mp hend
  obtain ⟨hloop, hhandles, hhistory⟩ := of_decide_eq_true hend
  exact ⟨s, hloop, hhandles, hhistory, (unregister_from_callback (Run.of_exec hs)).1⟩

def otherObject : List (Label Unit) := callbackOf ⟨16, 1⟩ ++ List.replicate 15 .run

/-- The object of the callback is freed though it is registered. The other one is called
back after it was unregistered, and is never freed. -/
theorem unregister_from_callback_otherObject :
    ∃ s : State Unit, Run (Next State.step) reactorNew otherObject s ∧ s.loop = .idle ∧
      ⟨8, 0⟩ ∈ s.handles ∧ s.frees 0 = 1 ∧ s.frees 1 = 0 ∧
      s.history = [.accessed 0 0, .accessed 0 0, .invoked 0 0, .unregistered none 1,
        .accessed 0 0, .freed none 0, .accessed 1 1, .accessed 1 1, .invoked 1 1,
        .accessed 1 1] ∧ ¬ RemovedExactly s := by
  have hend : ((exec (fun _ _ => true) State.step reactorNew otherObject).any fun s =>
      decide (s.loop = .idle ∧ (⟨8, 0⟩ : Event) ∈ s.handles ∧
        s.history = [.accessed 0 0, .accessed 0 0, .invoked 0 0, .unregistered none 1,
          .accessed 0 0, .freed none 0, .accessed 1 1, .accessed 1 1, .invoked 1 1,
          .accessed 1 1])) = true := by
    decide +kernel
  obtain ⟨s, hs, hend⟩ := (Option.any_eq_true _ _).mp hend
  obtain ⟨hloop, hhandle, hhistory⟩ := of_decide_eq_true hend
  have hzero : s.frees 0 = 1 := by
    rw [State.frees, hhistory]
    rfl
  have hone : s.frees 1 = 0 := by
    rw [State.frees, hhistory]
    rfl
  refine ⟨s, Run.of_exec_true hs, hloop, hhandle, hzero, hone, hhistory, fun hexactly => ?_⟩
  have hnot := hexactly.registered _ hhandle
  rw [hzero] at hnot
  cases hnot

end Reactor

end Osi
