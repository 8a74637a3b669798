import Osi.Collection.Last

/-!
# Order of arrival

In a log whose entries add keys to a collection and drop keys from it, a key
that is in the collection arrived at the first entry that added it since it was
last dropped. `Arrival adds drops log k i` says that this is the entry at the
position `i`. A list of keys is `Arranged` by the log when it holds exactly the
keys that have arrived and holds them in the order of their arrival.

The entry added last decides: a key it drops is gone, a key it adds arrives
unless it is there already, and every other key stays where it is.
-/

namespace Collection

variable {ε κ : Type*} {adds drops : ε → κ → Prop} {log : List ε} {e : ε} {k k' : κ}
  {i j : ℕ}

structure Arrival (adds drops : ε → κ → Prop) (log : List ε) (k : κ) (i : ℕ) : Prop where
  added : ∃ e, log[i]? = some e ∧ adds e k
  kept : ∀ j e, i < j → log[j]? = some e → ¬ drops e k
  first : ∀ j e, j < i → log[j]? = some e → adds e k →
    ∃ j' e', j < j' ∧ j' < i ∧ log[j']? = some e' ∧ drops e' k

namespace Arrival

theorem lt_length (h : Arrival adds drops log k i) : i < log.length := by
  obtain ⟨e, he, _⟩ := h.added
  exact lt_length_of_getElem? he

/-- Nothing is dropped after an arrival, so a key arrives once. -/
theorem le (h : Arrival adds drops log k i) (h' : Arrival adds drops log k j) : i ≤ j := by
  by_contra hlt
  obtain ⟨e, he, hadds⟩ := h'.added
  obtain ⟨m, e', hm, _, hget, hdrops⟩ := h.first j e (by omega) he hadds
  exact h'.kept m e' hm hget hdrops

theorem unique (h : Arrival adds drops log k i) (h' : Arrival adds drops log k j) :
    i = j :=
  le_antisymm (h.le h') (h'.le h)

/-- A new entry that does not drop the key leaves its arrival alone. -/
theorem concat (h : Arrival adds drops log k i) (hkeep : ¬ drops e k) :
    Arrival adds drops (log ++ [e]) k i := by
  obtain ⟨⟨e', he', hadds⟩, hkept, hfirst⟩ := h
  have hi := lt_length_of_getElem? he'
  refine ⟨⟨e', getElem?_concat_iff.mpr (Or.inl he'), hadds⟩, ?_, ?_⟩
  · intro j e₁ hj hget
    rcases getElem?_concat_iff.mp hget with hget | ⟨_, rfl⟩
    · exact hkept j e₁ hj hget
    · exact hkeep
  · intro j e₁ hj hget hadds'
    have hlt : j < log.length := by omega
    rw [List.getElem?_append_left hlt] at hget
    obtain ⟨j', e₂, hjj, hji, hget', hdrops⟩ := hfirst j e₁ hj hget hadds'
    exact ⟨j', e₂, hjj, hji, getElem?_concat_iff.mpr (Or.inl hget'), hdrops⟩

/-- An arrival before the newest entry was one before it was made. -/
theorem of_concat (h : Arrival adds drops (log ++ [e]) k i) (hi : i < log.length) :
    Arrival adds drops log k i ∧ ¬ drops e k := by
  obtain ⟨⟨e', he', hadds⟩, hkept, hfirst⟩ := h
  rw [List.getElem?_append_left hi] at he'
  refine ⟨⟨⟨e', he', hadds⟩, ?_, ?_⟩, ?_⟩
  · intro j e₁ hj hget
    exact hkept j e₁ hj (getElem?_concat_iff.mpr (Or.inl hget))
  · intro j e₁ hj hget hadds'
    obtain ⟨j', e₂, hjj, hji, hget', hdrops⟩ :=
      hfirst j e₁ hj (getElem?_concat_iff.mpr (Or.inl hget)) hadds'
    rw [List.getElem?_append_left (by omega)] at hget'
    exact ⟨j', e₂, hjj, hji, hget', hdrops⟩
  · exact hkept log.length e hi (getElem?_concat_iff.mpr (Or.inr ⟨rfl, rfl⟩))

theorem concat_self (hsep : ∀ e k, adds e k → ¬ drops e k) (hadds : adds e k)
    (hout : ∀ j, ¬ Arrival adds drops log k j) :
    Arrival adds drops (log ++ [e]) k log.length := by
  refine ⟨⟨e, by simp, hadds⟩, ?_, ?_⟩
  · intro j e₁ hj hget
    have := lt_length_of_getElem? hget
    simp at this
    omega
  · -- by strong induction from the end of the log: the last entry that adds the
    -- key is followed by one that drops it, or the key would be there
    intro j
    induction j using Nat.strong_induction_on with
    | _ j ih =>
        intro e₁ hj hget hadds₁
        rw [List.getElem?_append_left hj] at hget
        by_contra hnone
        push Not at hnone
        refine hout j ⟨⟨e₁, hget, hadds₁⟩, ?_, ?_⟩
        · intro j' e₂ hj' hget' hdrops
          exact hnone j' e₂ hj' (lt_length_of_getElem? hget')
            (getElem?_concat_iff.mpr (Or.inl hget')) hdrops
        · intro j' e₂ hj' hget' hadds₂
          obtain ⟨m, e₃, hm, hml, hget₃, hdrops⟩ :=
            ih j' hj' e₂ (by omega) (getElem?_concat_iff.mpr (Or.inl hget')) hadds₂
          rw [List.getElem?_append_left hml] at hget₃
          rcases lt_trichotomy m j with hlt | rfl | hgt
          · exact ⟨m, e₃, hm, hlt, hget₃, hdrops⟩
          · obtain rfl : e₁ = e₃ := Option.some.inj (hget.symm.trans hget₃)
            exact absurd hdrops (hsep e₁ k hadds₁)
          · exact absurd hdrops
              (hnone m e₃ hgt hml (getElem?_concat_iff.mpr (Or.inl hget₃)))

end Arrival

structure Arranged (adds drops : ε → κ → Prop) (log : List ε) (l : List κ) : Prop where
  mem_iff : ∀ k, k ∈ l ↔ ∃ i, Arrival adds drops log k i
  ordered : l.Pairwise fun k k' =>
    ∃ i i', Arrival adds drops log k i ∧ Arrival adds drops log k' i' ∧ i < i'

theorem arranged_nil : Arranged adds drops [] [] := by
  refine ⟨?_, List.Pairwise.nil⟩
  intro k
  constructor
  · intro hk
    cases hk
  · rintro ⟨i, hi⟩
    exact absurd hi.lt_length (Nat.not_lt_zero i)

namespace Arranged

variable {l : List κ}

theorem nodup (h : Arranged adds drops log l) : l.Nodup := by
  apply h.ordered.imp
  rintro k k' ⟨i, i', hi, hi', hlt⟩ rfl
  exact hlt.ne (hi.unique hi')

/-- An entry that adds nothing and drops the keys `k` with `p k`. -/
theorem drop (h : Arranged adds drops log l) {p : κ → Bool} (hadds : ∀ k, ¬ adds e k)
    (hdrops : ∀ k, drops e k ↔ p k = true) :
    Arranged adds drops (log ++ [e]) (l.filter fun k => !p k) := by
  refine ⟨?_, ?_⟩
  · intro k
    rw [List.mem_filter, h.mem_iff]
    constructor
    · rintro ⟨⟨i, hi⟩, hp⟩
      have hkeep : ¬ drops e k := by
        rw [hdrops]
        simpa using hp
      exact ⟨i, hi.concat hkeep⟩
    · rintro ⟨i, hi⟩
      obtain ⟨e', he', hadds'⟩ := hi.added
      rcases getElem?_concat_iff.mp he' with he' | ⟨_, rfl⟩
      · obtain ⟨hi, hkeep⟩ := hi.of_concat (lt_length_of_getElem? he')
        rw [hdrops] at hkeep
        exact ⟨⟨i, hi⟩, by simpa using hkeep⟩
      · exact absurd hadds' (hadds k)
  · have hkeep : ∀ k ∈ l.filter (fun k => !p k), ¬ drops e k := by
      intro k hk
      rw [hdrops]
      simpa using (List.mem_filter.mp hk).2
    refine List.Pairwise.imp_of_mem ?_ (h.ordered.filter _)
    rintro k k' hk hk' ⟨i, i', hi, hi', hlt⟩
    exact ⟨i, i', hi.concat (hkeep k hk), hi'.concat (hkeep k' hk'), hlt⟩

theorem skip (h : Arranged adds drops log l) (hadds : ∀ k, ¬ adds e k)
    (hdrops : ∀ k, ¬ drops e k) : Arranged adds drops (log ++ [e]) l := by
  have hdrop := h.drop (p := fun _ => false) hadds (by simpa using hdrops)
  rwa [List.filter_eq_self.mpr (by simp)] at hdrop

/-- An entry that adds the key `k` and drops nothing. -/
theorem add [Decidable (k ∈ l)] (h : Arranged adds drops log l)
    (hsep : ∀ e k, adds e k → ¬ drops e k) (hadds : ∀ k', adds e k' ↔ k' = k)
    (hdrops : ∀ k', ¬ drops e k') :
    Arranged adds drops (log ++ [e]) (if k ∈ l then l else l ++ [k]) := by
  have hnew : ∀ k' i, Arrival adds drops (log ++ [e]) k' i →
      (Arrival adds drops log k' i) ∨ (k' = k ∧ i = log.length) := by
    intro k' i hi
    obtain ⟨e', he', hadds'⟩ := hi.added
    rcases getElem?_concat_iff.mp he' with he' | ⟨rfl, rfl⟩
    · exact Or.inl (hi.of_concat (lt_length_of_getElem? he')).1
    · exact Or.inr ⟨(hadds k').mp hadds', rfl⟩
  have hordered : l.Pairwise fun k k' =>
      ∃ i i', Arrival adds drops (log ++ [e]) k i ∧
        Arrival adds drops (log ++ [e]) k' i' ∧ i < i' := by
    apply h.ordered.imp
    rintro k₁ k₂ ⟨i, i', hi, hi', hlt⟩
    exact ⟨i, i', hi.concat (hdrops _), hi'.concat (hdrops _), hlt⟩
  split
  · rename_i hk
    refine ⟨?_, hordered⟩
    intro k'
    rw [h.mem_iff]
    constructor
    · rintro ⟨i, hi⟩
      exact ⟨i, hi.concat (hdrops k')⟩
    · rintro ⟨i, hi⟩
      rcases hnew k' i hi with hi | ⟨rfl, _⟩
      · exact ⟨i, hi⟩
      · exact (h.mem_iff k').mp hk
  · rename_i hk
    have hout : ∀ j, ¬ Arrival adds drops log k j := by
      intro j hj
      exact hk ((h.mem_iff k).mpr ⟨j, hj⟩)
    have hself : Arrival adds drops (log ++ [e]) k log.length :=
      Arrival.concat_self hsep ((hadds k).mpr rfl) hout
    refine ⟨?_, ?_⟩
    · intro k'
      rw [List.mem_append, List.mem_singleton, h.mem_iff]
      constructor
      · rintro (⟨i, hi⟩ | rfl)
        · exact ⟨i, hi.concat (hdrops k')⟩
        · exact ⟨_, hself⟩
      · rintro ⟨i, hi⟩
        rcases hnew k' i hi with hi | ⟨rfl, _⟩
        · exact Or.inl ⟨i, hi⟩
        · exact Or.inr rfl
    · refine List.pairwise_append.mpr ⟨hordered, List.pairwise_singleton _ _, ?_⟩
      intro k₁ hk₁ k₂ hk₂
      obtain rfl := List.mem_singleton.mp hk₂
      obtain ⟨i, hi⟩ := (h.mem_iff k₁).mp hk₁
      exact ⟨i, log.length, hi.concat (hdrops k₁), hself, hi.lt_length⟩

end Arranged

end Collection
