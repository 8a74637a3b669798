import Osi.HashMap.Refinement.Iteration

/-!
# Clearing a hash map

`hash_map_clear` frees the bucket lists and leaves `hash_size` alone, so a map
that had `n` entries counts `n` too many from then on. Nothing else reads the
counter: the cleared map and a new one go through the same buckets, and their
replies differ at `hash_map_size` and at those calls of `hash_map_is_empty` that
are made while the new map is empty.
-/

namespace Osi

open Collection

namespace HashMap

variable {κ δ γ : Type*} {P : HashMapParams κ}

inductive Call (κ δ γ : Type*)
  | set (a : Allocation) (key : κ) (data : δ)
  | erase (key : κ)
  | get (key : κ)
  | hasKey (key : κ)
  | size
  | isEmpty
  | foreach (callback : HashMapEntry κ δ → γ → γ × Bool) (context : γ)

/-- What a call gives back; for `hash_map_foreach` the context it leaves. -/
inductive Reply (δ γ : Type*)
  | result (b : Bool)
  | data (d : Option δ)
  | size (n : ℕ)
  | context (c : γ)
  deriving DecidableEq

def step (m : HashMap P δ) : Call κ δ γ → HashMap P δ × Reply δ γ
  | .set a k d =>
      let (m', _, result) := m.set a k d
      (m', .result result)
  | .erase k =>
      let (m', _, result) := m.erase k
      (m', .result result)
  | .get k => (m, .data (m.get k))
  | .hasKey k => (m, .result (m.hasKey k))
  | .size => (m, .size m.size)
  | .isEmpty => (m, .result m.isEmpty)
  | .foreach callback context => (m, .context (m.foreach callback context))

def replies (m : HashMap P δ) (cs : List (Call κ δ γ)) : List (Reply δ γ) :=
  (Transition.calls step m cs).2

def shift (n : ℕ) (m : HashMap P δ) : HashMap P δ :=
  { m with hashSize := m.hashSize + n }

theorem clear_eq_shift (m : HashMap P δ) : m.clear.1 = shift m.hashSize new := by
  simp [clear, shift, new]

/-- The counter is no less than the number of entries: enough for an entry that
is found to have been counted. -/
def Counted (m : HashMap P δ) : Prop := m.total ≤ m.hashSize

theorem counted_new : Counted (new : HashMap P δ) := by
  simp [Counted, total, new, chain]

theorem Counted.pos {m : HashMap P δ} (h : Counted m) {k : κ} {e : HashMapEntry κ δ}
    (hfind : m.find k = some e) : 0 < m.hashSize := by
  have hpos : 0 < (m.chain (P.hashKey k)).length :=
    List.length_pos_of_mem (mem_of_lookup hfind)
  exact lt_of_lt_of_le (hpos.trans_le (length_chain_le m _)) h

theorem Counted.setIn {m : HashMap P δ} (h : Counted m) (a : Allocation) (k : κ) (d : δ) :
    Counted (m.setIn a k d (m.chain (P.hashKey k))).1 := by
  rw [setIn_eq]
  generalize hl : removeFirst HashMapEntry.key P.keysAreEqual k (m.chain (P.hashKey k)) ++
    (if a.entry && a.node then [⟨k, d⟩] else []) = l
  have htotal := total_setBucket m (P.hashKey k) l
  have hnode : (if a.entry && a.node then [(⟨k, d⟩ : HashMapEntry κ δ)] else []).length ≤ 1 := by
    split <;> simp
  have hlen : l.length ≤ (removeFirst HashMapEntry.key P.keysAreEqual k
      (m.chain (P.hashKey k))).length + 1 := by
    rw [← hl, List.length_append]
    omega
  have hcounted : m.total ≤ m.hashSize := h
  change (m.setBucket (P.hashKey k) l).total ≤ _
  cases hfind : lookup HashMapEntry.key P.keysAreEqual k (m.chain (P.hashKey k)) with
  | none =>
      rw [removeFirst_of_lookup_none hfind] at hlen
      simp only [Option.isSome_none, Bool.false_eq_true, if_false]
      omega
  | some e =>
      have hrem := length_removeFirst hfind
      simp only [Option.isSome_some, if_true]
      omega

/-- `hash_map_set` either stops at the allocation of the bucket list or goes on
in the bucket of the key. -/
theorem set_cases (m : HashMap P δ) (a : Allocation) (k : κ) (d : δ) :
    m.bucket (P.hashKey k) = none ∧ a.list = false ∧ m.set a k d = (m, [], false) ∨
      (m.bucket (P.hashKey k) = none → a.list = true) ∧
        m.set a k d = m.setIn a k d (m.chain (P.hashKey k)) := by
  unfold set chain
  cases hb : m.bucket (P.hashKey k) with
  | none =>
      cases ha : a.list with
      | false => exact Or.inl ⟨rfl, rfl, rfl⟩
      | true => exact Or.inr ⟨fun _ => rfl, rfl⟩
  | some l => exact Or.inr ⟨fun h => (Option.some_ne_none l h).elim, rfl⟩

theorem Counted.set {m : HashMap P δ} (h : Counted m) (a : Allocation) (k : κ) (d : δ) :
    Counted (m.set a k d).1 := by
  rcases set_cases m a k d with ⟨_, _, hset⟩ | ⟨_, hset⟩
  · rw [hset]
    exact h
  · rw [hset]
    exact h.setIn a k d

theorem Counted.erase {m : HashMap P δ} (h : Counted m) (k : κ) :
    Counted (m.erase k).1 := by
  cases hfind : m.find k with
  | none =>
      rw [erase_of_find_none hfind]
      exact h
  | some e =>
      rw [erase_of_find_some hfind]
      have htotal := total_setBucket m (P.hashKey k)
        (removeFirst HashMapEntry.key P.keysAreEqual k (m.chain (P.hashKey k)))
      have hrem := length_removeFirst hfind
      have hcounted : m.total ≤ m.hashSize := h
      change (m.setBucket (P.hashKey k) _).total ≤ m.hashSize - 1
      omega

theorem set_shift (n : ℕ) (m : HashMap P δ) (a : Allocation) (k : κ) (d : δ) :
    (shift n m).set a k d = (shift n (m.set a k d).1, (m.set a k d).2) := by
  have hin : ∀ l, (shift n m).setIn a k d l =
      (shift n (m.setIn a k d l).1, (m.setIn a k d l).2) := by
    intro l
    simp only [setIn_eq, shift, setBucket, Nat.add_right_comm]
  have hb : (shift n m).bucket = m.bucket := rfl
  unfold set
  rw [hb]
  cases m.bucket (P.hashKey k) with
  | some l => exact hin l
  | none =>
      cases a.list with
      | true => exact hin []
      | false => rfl

theorem Counted.erase_shift {m : HashMap P δ} (h : Counted m) (n : ℕ) (k : κ) :
    (shift n m).erase k = (shift n (m.erase k).1, (m.erase k).2) := by
  have hshift : (shift n m).find k = m.find k := rfl
  cases hfind : m.find k with
  | none => rw [erase_of_find_none hfind, erase_of_find_none (hshift.trans hfind)]
  | some e =>
      have hpos := h.pos hfind
      have hsub : m.hashSize + n - 1 = m.hashSize - 1 + n := by omega
      rw [erase_of_find_some hfind, erase_of_find_some (hshift.trans hfind)]
      simp only [shift, setBucket, chain, hsub]

theorem foreach_shift (n : ℕ) (m : HashMap P δ)
    (callback : HashMapEntry κ δ → γ → γ × Bool) (context : γ) :
    (shift n m).foreach callback context = m.foreach callback context := by
  rw [foreach, foreach, foreachFrom_eq, foreachFrom_eq]
  rfl

/-- The calls whose reply shows that the counter of the new map `m` and that of
a map with entries too many on it differ. -/
def Call.Reveals (m : HashMap P δ) : Call κ δ γ → Prop
  | .size => True
  | .isEmpty => m.isEmpty = true
  | _ => False

def Apart (n : ℕ) (s t : HashMap P δ) : Prop := s = shift n t ∧ Counted t

theorem Apart.step {n : ℕ} (hn : n ≠ 0) {s t : HashMap P δ} (h : Apart n s t)
    (c : Call κ δ γ) :
    Apart n (s.step c).1 (t.step c).1 ∧
      ((s.step c).2 = (t.step c).2 ↔ ¬ c.Reveals t) := by
  obtain ⟨rfl, hcounted⟩ := h
  cases c with
  | set a k d =>
      simp only [HashMap.step, set_shift, Call.Reveals]
      exact ⟨⟨rfl, hcounted.set a k d⟩, by simp⟩
  | erase k =>
      simp only [HashMap.step, hcounted.erase_shift, Call.Reveals]
      exact ⟨⟨rfl, hcounted.erase k⟩, by simp⟩
  | get k => exact ⟨⟨rfl, hcounted⟩, iff_of_true rfl not_false⟩
  | hasKey k => exact ⟨⟨rfl, hcounted⟩, iff_of_true rfl not_false⟩
  | foreach callback context =>
      simp only [HashMap.step, foreach_shift, Call.Reveals]
      exact ⟨⟨rfl, hcounted⟩, by simp⟩
  | size =>
      refine ⟨⟨rfl, hcounted⟩, iff_of_false ?_ (not_not_intro trivial)⟩
      simp [HashMap.step, size, shift, hn]
  | isEmpty =>
      refine ⟨⟨rfl, hcounted⟩, ?_⟩
      simp only [HashMap.step, Call.Reveals, isEmpty, shift]
      by_cases ht : t.hashSize = 0 <;> simp [ht, hn]

/-- A later sequence of calls has the same results after `hash_map_clear` as on
a new map exactly when the map was empty before it was cleared, or no call of
the sequence reads a counter that tells the two apart. For every sequence it has
the same results exactly when the map was empty. -/
theorem clear_equals_new_iff (m : HashMap P δ) :
    (∀ cs : List (Call κ δ γ),
      replies m.clear.1 cs = replies (new : HashMap P δ) cs ↔
        (m.isEmpty = true ∨ ∀ pre c post, cs = pre ++ c :: post →
          ¬ c.Reveals (Transition.calls step (new : HashMap P δ) pre).1)) ∧
      ((∀ cs : List (Call κ δ γ),
        replies m.clear.1 cs = replies (new : HashMap P δ) cs) ↔ m.isEmpty = true) := by
  rw [clear_eq_shift]
  by_cases hzero : m.hashSize = 0
  · have hempty : m.isEmpty = true := by simp [isEmpty, hzero]
    have hshift : shift m.hashSize (new : HashMap P δ) = new := by simp [shift, new, hzero]
    rw [hshift]
    simp [hempty]
  · have hempty : ¬ m.isEmpty = true := by simp [isEmpty, hzero]
    have hreplies : ∀ cs : List (Call κ δ γ),
        replies (shift m.hashSize new) cs = replies (new : HashMap P δ) cs ↔
          ∀ pre c post, cs = pre ++ c :: post →
            ¬ c.Reveals (Transition.calls step (new : HashMap P δ) pre).1 := fun cs =>
      Transition.calls_replies_eq_iff (R := Apart m.hashSize)
        (fun s t c h => Apart.step hzero h c) ⟨rfl, counted_new⟩ cs
    constructor
    · intro cs
      rw [hreplies cs, or_iff_right hempty]
    · constructor
      · intro hall
        have hsize := (hreplies [.size]).mp (hall [.size]) [] .size [] rfl
        exact absurd trivial hsize
      · intro h
        exact absurd h hempty

/-- One entry, cleared: `hash_map_size` says `1` where a new map says `0`. -/
theorem clear_keeps_size_of_one_entry :
    replies (after moduloFour [.set 1 10]).clear.1 [(.size : Call ℕ ℕ Unit)] ≠
      replies (new : HashMap moduloFour ℕ) [.size] := by
  decide

end HashMap

end Osi
