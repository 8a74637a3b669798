import Osi.HashMap.Refinement.Wellformed

/-!
# The entries of a hash map

The entries of a wellformed map are its pairs, one for each class of equal keys, and
`hash_size` counts them.
-/

namespace Osi

open Collection

namespace HashMap

variable {κ δ γ : Type*} {P : HashMapParams κ} {m : HashMap P δ} {k k' : κ}

theorem mem_entries {e : HashMapEntry κ δ} : e ∈ m.entries ↔ ∃ i, e ∈ m.chain i := by
  simp [entries, chain]

theorem length_entries (m : HashMap P δ) : m.entries.length = m.total := by
  simp only [entries, total, List.length_flatMap, Fin.sum_univ_def]
  rfl

theorem Wellformed.mem_entries_iff (h : Wellformed m) {e : HashMapEntry κ δ} :
    e ∈ m.entries ↔ e ∈ m.chain (P.hashKey e.key) := by
  rw [mem_entries]
  constructor
  · rintro ⟨i, he⟩
    rwa [h.placed i e he]
  · intro he
    exact ⟨_, he⟩

theorem Wellformed.distinct_entries (h : Wellformed m) (hP : P.Lawful) :
    Distinct HashMapEntry.key P.keysAreEqual m.entries := by
  unfold Distinct entries
  rw [List.pairwise_flatMap]
  refine ⟨fun i _ => h.distinct i, ?_⟩
  apply (List.nodup_finRange P.numBucket).imp
  intro i j hij e he e' he'
  by_contra hne
  have hkey := hP.hashKey_eq (Bool.of_not_eq_false hne)
  rw [h.placed i e he, h.placed j e' he'] at hkey
  exact hij hkey

theorem Wellformed.find_eq_some_iff (h : Wellformed m) (hP : P.Lawful)
    {e : HashMapEntry κ δ} :
    m.find k = some e ↔ e ∈ m.entries ∧ P.keysAreEqual e.key k = true := by
  rw [find, lookup_eq_some_iff hP.equality (h.distinct _), h.mem_entries_iff]
  constructor
  · rintro ⟨he, hk⟩
    exact ⟨by rwa [hP.hashKey_eq hk], hk⟩
  · rintro ⟨he, hk⟩
    exact ⟨by rwa [← hP.hashKey_eq hk], hk⟩

theorem Wellformed.get_eq_some_iff (h : Wellformed m) (hP : P.Lawful) {d : δ} :
    m.get k = some d ↔
      ∃ e ∈ m.entries, P.keysAreEqual e.key k = true ∧ e.data = d := by
  rw [get_eq, Option.map_eq_some_iff]
  simp only [h.find_eq_some_iff hP, and_assoc]

theorem Wellformed.mem_entries_iff_find (h : Wellformed m) (hP : P.Lawful)
    {e : HashMapEntry κ δ} : e ∈ m.entries ↔ m.find e.key = some e := by
  rw [h.find_eq_some_iff hP]
  exact ⟨fun he => ⟨he, hP.equality.refl _⟩, And.left⟩

theorem Wellformed.nodup_entries (h : Wellformed m) (hP : P.Lawful) : m.entries.Nodup := by
  refine (h.distinct_entries hP).imp fun {e e'} hne heq => ?_
  subst heq
  rw [hP.equality.refl] at hne
  cases hne

theorem Wellformed.perm_set (h : Wellformed m) (hP : P.Lawful) {d : δ} (hk : m.find k = none) :
    (m.set .succeeding k d).1.entries.Perm (⟨k, d⟩ :: m.entries) := by
  have hset := h.set hP k d
  have hnew : (⟨k, d⟩ : HashMapEntry κ δ) ∉ m.entries := by
    rw [h.mem_entries_iff_find hP, hk]
    exact nofun
  rw [List.perm_ext_iff_of_nodup (hset.nodup_entries hP)
    (List.nodup_cons.mpr ⟨hnew, h.nodup_entries hP⟩)]
  intro e
  rw [hset.mem_entries_iff_find hP, h.find_set hP, List.mem_cons, h.mem_entries_iff_find hP]
  by_cases he : P.keysAreEqual k e.key = true
  · rw [if_pos he, Option.some.injEq]
    refine ⟨fun heq => .inl heq.symm, fun hor => hor.elim Eq.symm fun hfind => ?_⟩
    -- an equal key would have been found
    rw [find, ← lookup_congr hP.equality he, ← hP.hashKey_eq he, ← find, hk] at hfind
    cases hfind
  · rw [if_neg he]
    refine ⟨Or.inr, fun hor => hor.resolve_left fun heq => he ?_⟩
    rw [heq]
    exact hP.equality.refl k

theorem Wellformed.perm_erase (h : Wellformed m) (hP : P.Lawful) {e : HashMapEntry κ δ}
    (hk : m.find k = some e) : m.entries.Perm (e :: (m.erase k).1.entries) := by
  have herase := h.erase k
  obtain ⟨he, hek⟩ := (h.find_eq_some_iff hP).mp hk
  have hgone : e ∉ (m.erase k).1.entries := by
    rw [herase.mem_entries_iff_find hP, h.find_erase hP, if_pos (hP.equality.symm hek)]
    exact nofun
  rw [List.perm_ext_iff_of_nodup (h.nodup_entries hP)
    (List.nodup_cons.mpr ⟨hgone, herase.nodup_entries hP⟩)]
  intro e'
  rw [List.mem_cons, herase.mem_entries_iff_find hP, h.find_erase hP]
  by_cases he' : P.keysAreEqual k e'.key = true
  · have hfind : m.find e'.key = some e := by
      rw [h.find_eq_some_iff hP]
      exact ⟨he, hP.equality.trans hek he'⟩
    rw [if_pos he', h.mem_entries_iff_find hP, hfind, Option.some.injEq]
    exact ⟨fun heq => .inl heq.symm, fun hor => hor.elim Eq.symm nofun⟩
  · rw [if_neg he', h.mem_entries_iff_find hP]
    refine ⟨Or.inr, fun hor => hor.resolve_left fun heq => he' ?_⟩
    rw [heq]
    exact hP.equality.symm hek

theorem Wellformed.ncard_classes (h : Wellformed m) (hP : P.Lawful) :
    Set.ncard {c : Quotient hP.setoid | ∃ k, Quotient.mk hP.setoid k = c ∧ m.get k ≠ none} =
      m.entries.length := by
  classical
  have hclasses : {c : Quotient hP.setoid |
      ∃ k, Quotient.mk hP.setoid k = c ∧ m.get k ≠ none} =
      ((m.entries.map fun e => Quotient.mk hP.setoid e.key).toFinset : Set _) := by
    ext c
    simp only [Set.mem_ofPred_eq, List.coe_toFinset, List.mem_map]
    constructor
    · rintro ⟨k, rfl, hk⟩
      obtain ⟨d, hd⟩ := Option.ne_none_iff_exists'.mp hk
      obtain ⟨e, he, hek, _⟩ := (h.get_eq_some_iff hP).mp hd
      exact ⟨e, he, Quotient.sound hek⟩
    · rintro ⟨e, he, rfl⟩
      refine ⟨e.key, rfl, ?_⟩
      rw [(h.get_eq_some_iff hP).mpr ⟨e, he, hP.equality.refl _, rfl⟩]
      exact Option.some_ne_none _
  have hnodup : (m.entries.map fun e => Quotient.mk hP.setoid e.key).Nodup := by
    rw [List.Nodup, List.pairwise_map]
    apply (h.distinct_entries hP).imp
    intro e e' hne heq
    have hkey : P.keysAreEqual e.key e'.key = true := Quotient.exact heq
    rw [hne] at hkey
    cases hkey
  rw [hclasses, Set.ncard_coe_finset, List.toFinset_card_of_nodup hnodup, List.length_map]

end HashMap

end Osi
