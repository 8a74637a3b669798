import Mathlib.Data.List.Basic
import Mathlib.Data.List.Pairwise

/-!
# Lists searched by key

A list whose elements carry keys is searched from its front for the first
element with a given key, where "the same key" is a Boolean relation `r` that
the user of the list supplies. `lookup` finds that element, `removeFirst` takes
it out and `modifyFirst` changes it in place. When `r` is an equivalence and no
two elements have the same key (`Distinct`), the first match is the only one,
and the three operations act on the list as on a finite map.
-/

namespace Collection

variable {α κ : Type*}

abbrev Equality (r : κ → κ → Bool) : Prop := Equivalence fun x y => r x y = true

def lookup (key : α → κ) (r : κ → κ → Bool) (k : κ) (l : List α) : Option α :=
  l.find? fun x => r (key x) k

/-- The list without the first element whose key is the same as `k`. -/
def removeFirst (key : α → κ) (r : κ → κ → Bool) (k : κ) (l : List α) : List α :=
  l.eraseP fun x => r (key x) k

/-- The list with the first element whose key is the same as `k` changed by
`f`. -/
def modifyFirst (key : α → κ) (r : κ → κ → Bool) (k : κ) (f : α → α) :
    List α → List α
  | [] => []
  | x :: l => if r (key x) k then f x :: l else x :: modifyFirst key r k f l

/-- No two elements have the same key. -/
def Distinct (key : α → κ) (r : κ → κ → Bool) (l : List α) : Prop :=
  l.Pairwise fun x y => r (key x) (key y) = false

section Lookup

variable {key : α → κ} {r : κ → κ → Bool} {k k' : κ} {l : List α} {x : α}

theorem lookup_eq_none_iff :
    lookup key r k l = none ↔ ∀ x ∈ l, r (key x) k = false := by
  simp [lookup]

theorem mem_of_lookup (h : lookup key r k l = some x) : x ∈ l :=
  List.mem_of_find?_eq_some h

theorem key_of_lookup (h : lookup key r k l = some x) : r (key x) k = true :=
  List.find?_some (p := fun x => r (key x) k) h

theorem lookup_concat :
    lookup key r k (l ++ [x]) =
      (lookup key r k l).or (if r (key x) k then some x else none) := by
  simp only [lookup, List.find?_append, List.find?_singleton]

theorem Equality.congr_right (h : Equality r) (hk : r k k' = true) (a : κ) :
    r a k = r a k' := by
  rw [Bool.eq_iff_iff]
  exact ⟨fun ha => h.trans ha hk, fun ha => h.trans ha (h.symm hk)⟩

theorem lookup_congr (h : Equality r) (hk : r k k' = true) :
    lookup key r k l = lookup key r k' l := by
  simp only [lookup, h.congr_right hk]

theorem lookup_eq_some_iff (h : Equality r) (hl : Distinct key r l) :
    lookup key r k l = some x ↔ x ∈ l ∧ r (key x) k = true := by
  constructor
  · intro hx
    exact ⟨mem_of_lookup hx, key_of_lookup hx⟩
  · rintro ⟨hx, hk⟩
    induction l with
    | nil => cases hx
    | cons y l ih =>
        obtain ⟨hy, hl⟩ := List.pairwise_cons.mp hl
        rcases List.mem_cons.mp hx with rfl | hx
        · simp [lookup, hk]
        · have hyk : r (key y) k = false := by
            by_contra hne
            have hyx := h.trans (Bool.of_not_eq_false hne) (h.symm hk)
            rw [hy x hx] at hyx
            cases hyx
          have hrest := ih hl hx
          simpa [lookup, hyk] using hrest

end Lookup

section RemoveFirst

variable {key : α → κ} {r : κ → κ → Bool} {k k' : κ} {l : List α} {x : α}

theorem removeFirst_sublist : (removeFirst key r k l).Sublist l :=
  List.eraseP_sublist

theorem Distinct.removeFirst (hl : Distinct key r l) :
    Distinct key r (removeFirst key r k l) :=
  List.Pairwise.sublist removeFirst_sublist hl

theorem removeFirst_of_lookup_none (h : lookup key r k l = none) :
    removeFirst key r k l = l :=
  List.eraseP_of_forall_not fun x hx => by simp [lookup_eq_none_iff.mp h x hx]

theorem length_removeFirst (h : lookup key r k l = some x) :
    (removeFirst key r k l).length + 1 = l.length := by
  have hmem := mem_of_lookup h
  have hlen := List.length_eraseP_of_mem (p := fun x => r (key x) k) hmem (key_of_lookup h)
  have hpos := List.length_pos_of_mem hmem
  change (List.eraseP _ l).length + 1 = _
  omega

theorem lookup_removeFirst (h : Equality r) (hl : Distinct key r l) :
    lookup key r k' (removeFirst key r k l) =
      if r k k' then none else lookup key r k' l := by
  induction l with
  | nil => simp [lookup, Collection.removeFirst]
  | cons x l ih =>
      obtain ⟨hx, hl⟩ := List.pairwise_cons.mp hl
      by_cases hxk : r (key x) k = true
      · have hrem : Collection.removeFirst key r k (x :: l) = l := by
          simp [Collection.removeFirst, hxk]
        rw [hrem]
        split
        · rename_i hkk
          rw [lookup_eq_none_iff]
          intro y hy
          by_contra hne
          have hyk := h.trans (h.trans hxk hkk) (h.symm (Bool.of_not_eq_false hne))
          rw [hx y hy] at hyk
          cases hyk
        · rename_i hkk
          have hxk' : r (key x) k' = false := by
            by_contra hne
            exact hkk (h.trans (h.symm hxk) (Bool.of_not_eq_false hne))
          simp [lookup, hxk']
      · have hrem : Collection.removeFirst key r k (x :: l) =
            x :: Collection.removeFirst key r k l := by
          simp [Collection.removeFirst, hxk]
        rw [hrem]
        by_cases hxk' : r (key x) k' = true
        · have hkk : ¬ r k k' = true := by
            intro hkk
            exact hxk (h.trans hxk' (h.symm hkk))
          simp [lookup, hxk', hkk]
        · have hrest := ih hl
          simpa [lookup, hxk'] using hrest

end RemoveFirst

section Concat

variable {key : α → κ} {r : κ → κ → Bool} {l : List α} {x : α}

theorem Distinct.concat (hl : Distinct key r l) (h : lookup key r (key x) l = none) :
    Distinct key r (l ++ [x]) := by
  refine List.pairwise_append.mpr ⟨hl, List.pairwise_singleton _ _, ?_⟩
  intro y hy z hz
  obtain rfl := List.mem_singleton.mp hz
  exact lookup_eq_none_iff.mp h y hy

end Concat

section ModifyFirst

variable {key : α → κ} {r : κ → κ → Bool} {k k' : κ} {f : α → α} {l : List α}

theorem map_key_modifyFirst (hf : ∀ x, key (f x) = key x) :
    (modifyFirst key r k f l).map key = l.map key := by
  induction l with
  | nil => rfl
  | cons x l ih =>
      rw [modifyFirst]
      split
      · simp [hf]
      · simp [ih]

theorem mem_modifyFirst {y : α} (hy : y ∈ modifyFirst key r k f l) :
    y ∈ l ∨ ∃ x ∈ l, r (key x) k = true ∧ y = f x := by
  induction l with
  | nil => cases hy
  | cons x l ih =>
      rw [modifyFirst] at hy
      split at hy
      · rename_i hx
        rcases List.mem_cons.mp hy with rfl | hy
        · exact Or.inr ⟨x, List.mem_cons_self, hx, rfl⟩
        · exact Or.inl (List.mem_cons_of_mem _ hy)
      · rcases List.mem_cons.mp hy with rfl | hy
        · exact Or.inl List.mem_cons_self
        · rcases ih hy with hy | ⟨z, hz, hkey, rfl⟩
          · exact Or.inl (List.mem_cons_of_mem _ hy)
          · exact Or.inr ⟨z, List.mem_cons_of_mem _ hz, hkey, rfl⟩

theorem modifyFirst_concat {x : α} (h : lookup key r k l = none)
    (hx : r (key x) k = true) : modifyFirst key r k f (l ++ [x]) = l ++ [f x] := by
  induction l with
  | nil => simp [modifyFirst, hx]
  | cons y l ih =>
      have hall := lookup_eq_none_iff.mp h
      have hy : ¬ r (key y) k = true := by simp [hall y List.mem_cons_self]
      have hl : lookup key r k l = none :=
        lookup_eq_none_iff.mpr fun z hz => hall z (List.mem_cons_of_mem _ hz)
      rw [List.cons_append, modifyFirst, if_neg hy, ih hl, List.cons_append]

theorem lookup_modifyFirst (h : Equality r) (hf : ∀ x, key (f x) = key x) :
    lookup key r k' (modifyFirst key r k f l) =
      if r k k' then (lookup key r k' l).map f else lookup key r k' l := by
  induction l with
  | nil => simp [lookup, modifyFirst]
  | cons x l ih =>
      rw [modifyFirst]
      by_cases hxk : r (key x) k = true
      · have hcongr : r k k' = r (key x) k' := by
          rw [Bool.eq_iff_iff]
          exact ⟨fun hkk => h.trans hxk hkk, fun hxk' => h.trans (h.symm hxk) hxk'⟩
        by_cases hxk' : r (key x) k' = true
        · simp [lookup, hxk, hcongr, hxk', hf]
        · simp [lookup, hxk, hcongr, hxk', hf]
      · by_cases hxk' : r (key x) k' = true
        · have hkk : ¬ r k k' = true := by
            intro hkk
            exact hxk (h.trans hxk' (h.symm hkk))
          simp [lookup, hxk, hxk', hkk]
        · simpa [lookup, hxk, hxk'] using ih

end ModifyFirst

end Collection
