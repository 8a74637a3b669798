import Osi.HashMap.Ownership.Calls
import Osi.Transition.Run

/-!
# Who owns the entries of a hash map

The entries that leave the map are released, each once, so that in every run the pairs that
were set are those that were released and those that are still in the map.
`hash_map_free` leaves no entry in memory.
-/

namespace Osi

open Collection Memory Transition

namespace HashMapT

variable {κ δ : Type} {P : HashMapParams κ} {m m' : HashMapT P δ}
  {heap₀ : Heap (HashMapEntry κ δ)} {i : Fin P.numBucket} {a p : Addr} {e : HashMapEntry κ δ}
  {k : κ}

structure Invariant (heap₀ : Heap (HashMapEntry κ δ)) (m : HashMapT P δ) : Prop where
  inMemory : InMemory heap₀ m
  sound : m.contents.Sound

/-- What an allowed call does: the pairs that it is to release are released, and they are
those that leave the map. -/
structure Releases (heap₀ : Heap (HashMapEntry κ δ)) (m : HashMapT P δ) (l : Label κ δ)
    (m' : HashMapT P δ) : Prop where
  invariant : Invariant heap₀ m'
  calls_eq : m'.calls = m.calls ++ (m.toRelease l).flatMap (freeCalls m.keyFn m.dataFn)
  keyFn_eq : m'.keyFn = m.keyFn
  dataFn_eq : m'.dataFn = m.dataFn
  perm : (setPairs [l] ++ m.pairs).Perm (m.toRelease l ++ m'.pairs)
  freed : m'.live = false → m'.pairs = [] ∧ m'.entry = heap₀

theorem entries_clear (m : HashMap P δ) : m.clear.1.entries = [] := by
  simp [HashMap.entries, HashMap.clear]

namespace Invariant

theorem set (h : Invariant heap₀ m) (hP : P.Lawful) (hlive : m.live = true)
    (hp : m.usable k p = true) (d : δ) :
    ∃ m', m.set k d p = some m' ∧ Releases heap₀ m (.set k d p) m' := by
  obtain ⟨m', hm', hlive', hbecomes⟩ := h.inMemory.set_spec hp d
  have hreleased : m.toRelease (.set k d p) = (m.contents.set .succeeding k d).2.1 := by
    rw [HashMap.set_succeeding]
    exact h.sound.filter_entries hP k
  refine ⟨m', hm', ⟨hbecomes.inMemory, ?_⟩, ?_, hbecomes.keyFn_eq, hbecomes.dataFn_eq, ?_, ?_⟩
  · rw [hbecomes.contents_eq]
    exact h.sound.set hP k d
  · rw [hreleased]
    exact hbecomes.calls_eq
  · rw [hreleased, pairs, pairs, hbecomes.contents_eq]
    exact m.contents.perm_of_set k d
  · intro hdead
    rw [hlive', hlive] at hdead
    cases hdead

theorem erase (h : Invariant heap₀ m) (hP : P.Lawful) (hlive : m.live = true) (k : κ) :
    ∃ m' b, m.erase k = some (m', b) ∧ Releases heap₀ m (.erase k) m' := by
  obtain ⟨m', hm', hlive', hbecomes⟩ := h.inMemory.erase_spec k
  have hreleased : m.toRelease (.erase k) = (m.contents.erase k).2.1 := by
    refine (h.sound.filter_entries hP k).trans ?_
    cases hfind : m.contents.find k with
    | none => rw [HashMap.erase_of_find_none hfind, Option.toList_none]
    | some e => rw [HashMap.erase_of_find_some hfind, Option.toList_some]
  refine ⟨m', _, hm', ⟨hbecomes.inMemory, ?_⟩, ?_, hbecomes.keyFn_eq, hbecomes.dataFn_eq, ?_, ?_⟩
  · rw [hbecomes.contents_eq]
    exact h.sound.erase k
  · rw [hreleased]
    exact hbecomes.calls_eq
  · rw [hreleased, pairs, pairs, hbecomes.contents_eq]
    exact m.contents.perm_of_erase k
  · intro hdead
    rw [hlive', hlive] at hdead
    cases hdead

theorem clear (h : Invariant heap₀ m) :
    ∃ m', m.clear = some m' ∧ m'.pairs = [] ∧ m'.entry = heap₀ ∧
      Releases heap₀ m .clear m' := by
  obtain ⟨m', hm', -, hheap, hbecomes⟩ := h.inMemory.clear_spec
  have hempty : m'.pairs = [] := by
    rw [pairs, hbecomes.contents_eq, entries_clear]
  refine ⟨m', hm', hempty, hheap, ⟨hbecomes.inMemory, ?_⟩, hbecomes.calls_eq,
    hbecomes.keyFn_eq, hbecomes.dataFn_eq, ?_, fun _ => ⟨hempty, hheap⟩⟩
  · rw [hbecomes.contents_eq]
    exact HashMap.Sound.clear m.contents
  · rw [hempty, List.append_nil]
    exact List.Perm.refl _

theorem free (h : Invariant heap₀ m) :
    ∃ m', m.hashMapFree = some m' ∧ Releases heap₀ m .free m' := by
  obtain ⟨m', hm', hempty, hheap, hreleases⟩ := h.clear
  have hin := hreleases.invariant.inMemory
  refine ⟨{ m' with live := false }, by rw [hashMapFree, hm', Option.map_some], ⟨?_, ?_⟩,
    hreleases.calls_eq, hreleases.keyFn_eq, hreleases.dataFn_eq, hreleases.perm,
    fun _ => ⟨hempty, hheap⟩⟩
  · exact ⟨hin.ne_null, hin.allocated, hin.nodup, hin.disjoint, hin.outside, hin.new⟩
  · exact hreleases.invariant.sound

theorem step (h : Invariant heap₀ m) (hP : P.Lawful) {l : Label κ δ}
    (hallowed : allowed m l = true) :
    ∃ m', HashMapT.step m l = .ok m' ∧ Releases heap₀ m l m' := by
  suffices hcall : ∃ m', call m l = some m' ∧ Releases heap₀ m l m' by
    obtain ⟨m', hm', hreleases⟩ := hcall
    exact ⟨m', by simp [HashMapT.step, hallowed, hm'], hreleases⟩
  cases l with
  | set k d p =>
      obtain ⟨hlive, hp⟩ := (Bool.and_eq_true _ _).mp hallowed
      exact h.set hP hlive hp d
  | erase k =>
      obtain ⟨m', b, hm', hreleases⟩ := h.erase hP hallowed k
      exact ⟨m', by simp [call, hm'], hreleases⟩
  | clear =>
      obtain ⟨m', hm', -, -, hreleases⟩ := h.clear
      exact ⟨m', hm', hreleases⟩
  | free => exact h.free

end Invariant

theorem allowed_of_step {l : Label κ δ} (hstep : step m l = .ok m') : allowed m l = true := by
  by_contra hnot
  rw [step, if_neg hnot] at hstep
  cases hstep

theorem setPairs_append (ls ls' : List (Label κ δ)) :
    setPairs (ls ++ ls') = setPairs ls ++ setPairs ls' :=
  List.filterMap_append

structure Conserved (heap₀ : Heap (HashMapEntry κ δ)) (keyFn dataFn : Bool)
    (ls : List (Label κ δ)) (m : HashMapT P δ) : Prop where
  invariant : Invariant heap₀ m
  keyFn_eq : m.keyFn = keyFn
  dataFn_eq : m.dataFn = dataFn
  released : ∃ released : List (HashMapEntry κ δ),
    m.calls = released.flatMap (freeCalls keyFn dataFn) ∧
      (setPairs ls : Multiset (HashMapEntry κ δ)) = released + m.pairs
  freed : m.live = false → m.pairs = [] ∧ m.entry = heap₀

theorem conserved_of_run (hP : P.Lawful) {keyFn dataFn : Bool} {ls : List (Label κ δ)}
    (hrun : Run (Next step) (new heap₀ keyFn dataFn) ls m) :
    Conserved heap₀ keyFn dataFn ls m := by
  induction hrun with
  | nil =>
      refine ⟨⟨inMemory_new heap₀ keyFn dataFn, HashMap.Sound.new⟩, rfl, rfl, ⟨[], rfl, ?_⟩,
        fun hlive => by cases hlive⟩
      have hnil : (new heap₀ keyFn dataFn : HashMapT P δ).pairs = [] := by
        simp [pairs, HashMap.entries, contents, new]
      rw [hnil]
      rfl
  | @snoc m₁ m₂ ls l _ hlast ih =>
      obtain ⟨m₂', hstep, hreleases⟩ := ih.invariant.step hP (allowed_of_step hlast)
      obtain rfl := Except.ok.inj (hlast.symm.trans hstep)
      obtain ⟨released, hcalls, hpairs⟩ := ih.released
      refine ⟨hreleases.invariant, hreleases.keyFn_eq.trans ih.keyFn_eq,
        hreleases.dataFn_eq.trans ih.dataFn_eq, ⟨released ++ m₁.toRelease l, ?_, ?_⟩,
        hreleases.freed⟩
      · rw [hreleases.calls_eq, hcalls, ih.keyFn_eq, ih.dataFn_eq, List.flatMap_append]
      · have hperm := Multiset.coe_eq_coe.mpr hreleases.perm
        simp only [← Multiset.coe_add] at hperm
        rw [setPairs_append, ← Multiset.coe_add, ← Multiset.coe_add, hpairs, add_assoc, add_assoc,
          add_comm (Multiset.ofList m₁.pairs), hperm]

/-- In every run of a client. The calls of `key_fn` and `data_fn` are those for some
pairs, and with the pairs in the map these are the pairs that were set. After
`hash_map_free` there is no pair left in the map, and the memory is as it was. An
allowed call returns, and it calls `key_fn` and `data_fn` for the pairs with the key
that it replaces or erases, or for all pairs. -/
theorem entries_released_once (hP : P.Lawful) (heap₀ : Heap (HashMapEntry κ δ))
    (keyFn dataFn : Bool) {ls : List (Label κ δ)}
    (hrun : Run (Next step) (new heap₀ keyFn dataFn) ls m) :
    (∃ released : List (HashMapEntry κ δ),
      m.calls = released.flatMap (freeCalls keyFn dataFn) ∧
        (setPairs ls : Multiset (HashMapEntry κ δ)) = released + m.pairs) ∧
    (m.live = false → m.pairs = [] ∧ m.entry = heap₀) ∧
    ∀ l, allowed m l = true → ∃ m', step m l = .ok m' ∧
      m'.calls = m.calls ++ (m.toRelease l).flatMap (freeCalls keyFn dataFn) := by
  have hconserved := conserved_of_run hP hrun
  refine ⟨hconserved.released, hconserved.freed, ?_⟩
  intro l hallowed
  obtain ⟨m', hm', hreleases⟩ := hconserved.invariant.step hP hallowed
  refine ⟨m', hm', ?_⟩
  rw [hreleases.calls_eq, hconserved.keyFn_eq, hconserved.dataFn_eq]

/-- The keys 1 and 5 are equal, and so are 2 and 6; the third entry is where the first
was. -/
def equalKeys : List (Label ℕ ℕ) :=
  [.set 1 10 100, .set 2 20 200, .set 5 50 100, .erase 6, .set 3 30 200, .clear, .set 1 11 100,
    .free]

theorem entries_released_once_equalKeys :
    ∃ m : HashMapT HashMap.moduloFour ℕ,
      Run (Next step) (new (fun _ => none) true true) equalKeys m ∧
      m.calls = [.key 1, .data 10, .key 2, .data 20, .key 5, .data 50, .key 3, .data 30,
        .key 1, .data 11] ∧
      m.pairs = [] ∧ m.entry = fun _ => none := by
  have hend : (exec (fun _ _ => true) step
      (new (fun _ => none) true true : HashMapT HashMap.moduloFour ℕ) equalKeys).any
      (fun m => decide (m.live = false ∧ m.calls = [.key 1, .data 10, .key 2, .data 20, .key 5,
        .data 50, .key 3, .data 30, .key 1, .data 11])) = true := by
    decide +kernel
  obtain ⟨m, hm, hend⟩ := (Option.any_eq_true _ _).mp hend
  obtain ⟨hlive, hcalls⟩ := of_decide_eq_true hend
  have hrun := Run.of_exec_true hm
  obtain ⟨hpairs, hheap⟩ :=
    (entries_released_once HashMap.lawful_moduloFour _ true true hrun).2.1 hlive
  exact ⟨m, hrun, hcalls, hpairs, hheap⟩

end HashMapT

end Osi
