import Osi.HashMap.Clear
import Mathlib.Data.Multiset.AddSub

/-!
# Pairs that enter and leave a map

`hash_map_set` takes one pair and gives back those that it releases; `hash_map_erase` only
gives back. The pairs of the map before are those after and those that were given back.
-/

namespace Osi

open Collection

/-! ## Pairs that enter and leave a map -/

namespace HashMap

variable {κ δ : Type*} {P : HashMapParams κ} {m : HashMap P δ} {k : κ}

theorem perm_removeFirst {l : List (HashMapEntry κ δ)} {e : HashMapEntry κ δ}
    (h : lookup HashMapEntry.key P.keysAreEqual k l = some e) :
    l.Perm (e :: removeFirst HashMapEntry.key P.keysAreEqual k l) := by
  obtain ⟨hk, l₁, l₂, rfl, hbefore⟩ := List.find?_eq_some_iff_append.mp h
  have hrem : removeFirst HashMapEntry.key P.keysAreEqual k (l₁ ++ e :: l₂) = l₁ ++ l₂ := by
    unfold removeFirst
    rw [List.eraseP_append_right _ (by simpa using hbefore),
      List.eraseP_cons_of_pos (by simpa using hk)]
  rw [hrem]
  exact List.perm_middle

/-- A bucket keeps a part of its entries, and others come in. -/
theorem perm_exchange {i : Fin P.numBucket} {kept out : List (HashMapEntry κ δ)}
    (h : (m.chain i).Perm (out ++ kept)) (new : List (HashMapEntry κ δ)) (n : ℕ) :
    (new ++ m.entries).Perm
      (out ++ entries { m.setBucket i (kept ++ new) with hashSize := n }) := by
  obtain ⟨is, js, hsplit⟩ := List.append_of_mem (List.mem_finRange i)
  have hnodup := List.nodup_finRange P.numBucket
  rw [hsplit, List.nodup_middle, List.nodup_cons, List.mem_append, not_or] at hnodup
  have hother : ∀ is' : List (Fin P.numBucket), i ∉ is' →
      is'.flatMap (m.setBucket i (kept ++ new)).chain = is'.flatMap m.chain := by
    intro is' hi
    rw [List.flatMap_def, List.flatMap_def]
    refine congrArg List.flatten (List.map_congr_left fun j hj => ?_)
    rw [chain_setBucket, Function.update_of_ne]
    rintro rfl
    exact hi hj
  have hself : (m.setBucket i (kept ++ new)).chain i = kept ++ new := by
    rw [chain_setBucket, Function.update_self]
  change (new ++ (List.finRange P.numBucket).flatMap m.chain).Perm
    (out ++ (List.finRange P.numBucket).flatMap (m.setBucket i (kept ++ new)).chain)
  rw [hsplit, List.flatMap_append, List.flatMap_append, List.flatMap_cons, List.flatMap_cons,
    hother is hnodup.1.1, hother js hnodup.1.2, hself]
  rw [← Multiset.coe_eq_coe] at h ⊢
  simp only [← Multiset.coe_add] at h ⊢
  rw [h]
  ac_rfl

theorem perm_chain (m : HashMap P δ) (k : κ) :
    (m.chain (P.hashKey k)).Perm ((m.find k).toList ++
      removeFirst HashMapEntry.key P.keysAreEqual k (m.chain (P.hashKey k))) := by
  cases hfind : m.find k with
  | none =>
      rw [removeFirst_of_lookup_none hfind]
      exact List.Perm.refl _
  | some e => exact perm_removeFirst hfind

/-- `hash_map_set` takes one pair, and gives back those that it releases. -/
theorem perm_of_set (m : HashMap P δ) (k : κ) (d : δ) :
    (⟨k, d⟩ :: m.entries).Perm
      ((m.set .succeeding k d).2.1 ++ (m.set .succeeding k d).1.entries) := by
  rw [set_succeeding]
  exact perm_exchange (m.perm_chain k) [⟨k, d⟩] _

theorem perm_of_erase (m : HashMap P δ) (k : κ) :
    m.entries.Perm ((m.erase k).2.1 ++ (m.erase k).1.entries) := by
  cases hfind : m.find k with
  | none =>
      rw [erase_of_find_none hfind]
      exact List.Perm.refl _
  | some e =>
      rw [erase_of_find_some hfind]
      have hperm := perm_exchange (m.perm_chain k) [] (m.hashSize - 1)
      rwa [List.append_nil, hfind] at hperm

def Sound (m : HashMap P δ) : Prop := ∃ n m₀, m = shift n m₀ ∧ m₀.Wellformed

namespace Sound

theorem new : Sound (new : HashMap P δ) := ⟨0, HashMap.new, rfl, wellformed_new⟩

theorem set (h : Sound m) (hP : P.Lawful) (k : κ) (d : δ) :
    Sound (m.set .succeeding k d).1 := by
  obtain ⟨n, m₀, rfl, hm₀⟩ := h
  rw [set_shift]
  exact ⟨n, _, rfl, hm₀.set hP k d⟩

theorem erase (h : Sound m) (k : κ) : Sound (m.erase k).1 := by
  obtain ⟨n, m₀, rfl, hm₀⟩ := h
  have hcounted : Counted m₀ := hm₀.hashSize_eq.ge
  rw [hcounted.erase_shift]
  exact ⟨n, _, rfl, hm₀.erase k⟩

theorem clear (m : HashMap P δ) : Sound m.clear.1 :=
  ⟨m.hashSize, HashMap.new, clear_eq_shift m, wellformed_new⟩

theorem filter_entries (h : Sound m) (hP : P.Lawful) (k : κ) :
    m.entries.filter (fun e => P.keysAreEqual e.key k) = (m.find k).toList := by
  obtain ⟨n, m₀, rfl, hm₀⟩ := h
  have hiff : ∀ e, m₀.find k = some e ↔ e ∈ m₀.entries.filter
      (fun e => P.keysAreEqual e.key k) := by
    intro e
    rw [hm₀.find_eq_some_iff hP, List.mem_filter]
  change m₀.entries.filter (fun e => P.keysAreEqual e.key k) = (m₀.find k).toList
  cases hfind : m₀.find k with
  | none =>
      rw [Option.toList_none, List.eq_nil_iff_forall_not_mem]
      intro e he
      rw [← hiff, hfind] at he
      cases he
  | some e =>
      refine List.perm_singleton.mp ?_
      rw [List.perm_ext_iff_of_nodup ((hm₀.nodup_entries hP).filter _)
        (List.nodup_singleton e)]
      intro e'
      rw [← hiff, hfind, List.mem_singleton, Option.some.injEq, eq_comm]

end Sound

end HashMap

end Osi
