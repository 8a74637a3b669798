import Osi.CString.Token
import Osi.HashMap.Refinement.Iteration
import Mathlib.Data.Finset.Card
import Mathlib.Data.List.TakeWhile
import Mathlib.Data.UInt

/-!
# Maps from parameter strings

`hash_map_utils_new_from_string_params` copies its string, cuts the copy into pieces at
the semicolons and sets, for every piece that does not start with an equals sign, the
text before the first equals sign to the text behind it. The keys and values are copies
of their own; a key is hashed and compared by its bytes, in five buckets. The bytes are
added to the hash as `char`s, which are signed on some machines and not on others.

The meaning of a string is given without the buffer and the map: the parameters are
read off the pieces, and a later parameter replaces an earlier one of the same name.
-/

namespace Osi

open Collection CString

namespace HashMap

/-! ## The code -/

def charValue (signed : Bool) (c : UInt8) : UInt64 :=
  if signed then UInt64.ofInt c.toInt8.toInt else c.toUInt64

def hashFunctionString (signed : Bool) (key : List UInt8) : UInt64 :=
  key.foldl (fun hash c => ((hash <<< 5) + hash) + charValue signed c) 5381

def stringEquals (keyA keyB : List UInt8) : Bool := keyA == keyB

def stringParams (signed : Bool) : HashMapParams (List UInt8) where
  numBucket := 5
  hashFn := fun key => (hashFunctionString signed key).toNat
  keysAreEqual := stringEquals
  numBucket_pos := by decide

def osiStrndup (buffer : Buffer) (str len : ℕ) : Option (List UInt8) := do
  let size ← strlen buffer str
  let size := if len < size then len else size
  return (buffer.drop str).take size

def copyValue (buffer : Buffer) (eq : ℕ) : Option (List UInt8) := do
  let c ← load buffer eq
  if c ≠ 0 then string buffer eq else some []

variable {signed : Bool}

def setPair (buffer : Buffer) (kvpair : ℕ) (map : HashMap (stringParams signed) (List UInt8)) :
    Option (HashMap (stringParams signed) (List UInt8)) := do
  let eq ← strchr buffer kvpair 61
  match eq with
  | some eq =>
    -- `goto next_pair`
    if eq = kvpair then return map
    let key ← osiStrndup buffer kvpair (eq - kvpair)
    let value ← copyValue buffer (eq + 1)
    return (map.set .succeeding key value).1
  | none =>
    let key ← string buffer kvpair
    return (map.set .succeeding key []).1

/-- The loop; `kvpair` and `tmpstr` are what the last `strtok_r` gave. -/
def parsePairs : ℕ → Buffer → Option ℕ → ℕ → HashMap (stringParams signed) (List UInt8) →
    Option (HashMap (stringParams signed) (List UInt8))
  | 0, _, _, _, _ => none
  | fuel + 1, buffer, kvpair, tmpstr, map =>
    match kvpair with
    | none => some map
    | some kvpair => do
      let c ← load buffer kvpair
      if c = 0 then return map
      let map ← setPair buffer kvpair map
      let (buffer, kvpair, tmpstr) ← strtokR 59 buffer tmpstr
      parsePairs fuel buffer kvpair tmpstr map

/-- `hash_map_utils_new_from_string_params`. Every piece takes at least one byte, so the
loop is entered at most once more than there are bytes. -/
def newFromStringParams (signed : Bool) (params : List UInt8) :
    Option (HashMap (stringParams signed) (List UInt8)) := do
  let str := params ++ [0]
  let (buffer, kvpair, tmpstr) ← strtokR 59 str 0
  parsePairs (params.length + 1) buffer kvpair tmpstr new

/-! ## The meaning of a string -/

/-- The parameter that a piece gives: nothing if it starts with an equals sign. -/
def parameter (piece : List UInt8) : Option (List UInt8 × List UInt8) :=
  if piece.head? = some 61 then none
  else some (piece.takeWhile (· ≠ 61), (piece.dropWhile (· ≠ 61)).tail)

def parameters (params : List UInt8) : List (List UInt8 × List UInt8) :=
  (pieces 59 params).filterMap parameter

def values (ps : List (List UInt8 × List UInt8)) : List UInt8 → Option (List UInt8) :=
  ps.foldl (fun f p => Function.update f p.1 (some p.2)) fun _ => none

def format (ps : List (List UInt8 × List UInt8)) : List UInt8 :=
  ps.flatMap fun p => p.1 ++ 61 :: p.2 ++ [59]

/-! ## The pieces -/

theorem lawful_stringParams (signed : Bool) : (stringParams signed).Lawful where
  equality := ⟨by simp [stringParams, stringEquals], by simp [stringParams, stringEquals],
    by simp [stringParams, stringEquals]⟩
  hashFn_eq := by simp [stringParams, stringEquals]

def setParameter (map : HashMap (stringParams signed) (List UInt8)) (p : List UInt8 × List UInt8) :
    HashMap (stringParams signed) (List UInt8) :=
  (map.set .succeeding p.1 p.2).1

theorem parameter_of_notMem {piece : List UInt8} (h : 61 ∉ piece) :
    parameter piece = some (piece, []) := by
  have hall : ∀ x ∈ piece, decide (x ≠ 61) = true := by
    intro x hx
    rw [decide_eq_true_iff]
    rintro rfl
    exact h hx
  have hhead : piece.head? ≠ some 61 := fun hhead => h (List.mem_of_head? hhead)
  rw [parameter, if_neg hhead, List.takeWhile_eq_self_iff.mpr hall,
    List.dropWhile_eq_nil_iff.mpr hall]
  rfl

theorem parameter_append {key : List UInt8} (hkey : key ≠ []) (h : 61 ∉ key) (value : List UInt8) :
    parameter (key ++ 61 :: value) = some (key, value) := by
  have hall : ∀ x ∈ key, decide (x ≠ 61) = true := by
    intro x hx
    rw [decide_eq_true_iff]
    rintro rfl
    exact h hx
  have hhead : (key ++ 61 :: value).head? ≠ some 61 := by
    rw [List.head?_append_of_ne_nil _ hkey]
    exact fun hhead => h (List.mem_of_head? hhead)
  rw [parameter, if_neg hhead, List.takeWhile_append_of_pos hall, List.dropWhile_append_of_pos hall]
  simp

theorem osiStrndup_append {key : List UInt8} (hkey : 0 ∉ key) {rest : List UInt8} (hrest : 0 ∉ rest)
    (pre post : List UInt8) :
    osiStrndup (pre ++ ((key ++ rest) ++ 0 :: post)) pre.length key.length = some key := by
  have hnul : 0 ∉ key ++ rest := by
    rw [List.mem_append, not_or]
    exact ⟨hkey, hrest⟩
  have hsize : (if key.length < (key ++ rest).length then key.length
      else (key ++ rest).length) = key.length := by
    rw [List.length_append]
    split <;> omega
  simp only [osiStrndup, strlen_append hnul, Option.bind_eq_bind, Option.bind_some, hsize,
    drop_append_length, Option.pure_def]
  simp

theorem copyValue_append {value : List UInt8} (hvalue : 0 ∉ value) (pre post : List UInt8) :
    copyValue (pre ++ (value ++ 0 :: post)) pre.length = some value := by
  cases value with
  | nil =>
      have hload := load_append pre 0 post
      simp [copyValue, hload]
  | cons x value =>
      have hx : x ≠ 0 := by
        rintro rfl
        exact hvalue List.mem_cons_self
      have hload := load_append pre x (value ++ 0 :: post)
      have hstring := string_append hvalue pre post
      rw [List.cons_append] at hstring ⊢
      simp [copyValue, hload, hx, hstring]

theorem setPair_spec (map : HashMap (stringParams signed) (List UInt8)) {piece : List UInt8}
    (hnul : 0 ∉ piece) (pre post : List UInt8) :
    setPair (pre ++ (piece ++ 0 :: post)) pre.length map =
      some ((parameter piece).elim map (setParameter map)) := by
  by_cases hmem : 61 ∈ piece
  · obtain ⟨key, value, rfl, hkey⟩ := List.eq_append_cons_of_mem hmem
    have hkey0 : 0 ∉ key := fun h0 => hnul (List.mem_append_left _ h0)
    have hrest0 : 0 ∉ 61 :: value := fun h0 => hnul (List.mem_append_right _ h0)
    have hvalue0 : 0 ∉ value := fun h0 => hrest0 (List.mem_cons_of_mem _ h0)
    have hchr := strchr_append (c := 61) (b := value) hkey0 hkey pre (0 :: post)
    by_cases hnil : key = []
    · subst hnil
      rw [List.append_nil] at hchr
      simp only [setPair, hchr, Option.bind_eq_bind, Option.bind_some, if_true, Option.pure_def]
      rfl
    · have hne : (pre ++ key).length ≠ pre.length := by
        have := List.length_pos_of_ne_nil hnil
        rw [List.length_append]
        omega
      have hlen : (pre ++ key).length - pre.length = key.length := by
        rw [List.length_append]
        omega
      have hbuffer : pre ++ ((key ++ 61 :: value) ++ 0 :: post) =
          (pre ++ key ++ [61]) ++ (value ++ 0 :: post) := by simp
      have hindex : (pre ++ key).length + 1 = (pre ++ key ++ [61]).length := by
        simp only [List.length_append, List.length_singleton]
      have hvalue := copyValue_append hvalue0 (pre ++ key ++ [61]) post
      rw [← hbuffer, ← hindex] at hvalue
      rw [parameter_append hnil hkey]
      simp only [setPair, hchr, hlen, osiStrndup_append hkey0 hrest0, hvalue, if_neg hne,
        Option.bind_eq_bind, Option.bind_some, Option.pure_def]
      rfl
  · rw [parameter_of_notMem hmem]
    have hchr := strchr_of_notMem hnul hmem (by decide) pre post
    have hstring := string_append hnul pre post
    simp only [setPair, hchr, hstring, Option.bind_eq_bind, Option.bind_some, Option.pure_def]
    rfl

/-! ## The loop -/

theorem parsePairs_spec {s : List UInt8} (hs : 0 ∉ s) (pre : List UInt8) {fuel : ℕ}
    (hfuel : s.length < fuel) (map : HashMap (stringParams signed) (List UInt8)) :
    ((strtokR 59 (pre ++ (s ++ [0])) pre.length).bind fun (buffer, kvpair, tmpstr) =>
      parsePairs fuel buffer kvpair tmpstr map) =
      some ((parameters s).foldl setParameter map) := by
  induction fuel generalizing s pre map with
  | zero => exact absurd hfuel (Nat.not_lt_zero _)
  | succ fuel ih =>
      obtain ⟨r, hr, htokenizes⟩ := strtokR_spec (by decide : (59 : UInt8) ≠ 0) hs pre
      rw [hr, Option.bind_some]
      cases htokenizes with
      | done buffer i hpieces =>
          rw [parameters, hpieces]
          rfl
      | token pre tok post pre' s' hpieces htok hnul hnul' hlength hbuffer =>
          obtain ⟨c, hc, hload⟩ : ∃ c, c ≠ 0 ∧
              load (pre ++ (tok ++ 0 :: post)) pre.length = some c := by
            cases tok with
            | nil => exact absurd rfl htok
            | cons x tok =>
                refine ⟨x, ?_, load_append pre x _⟩
                rintro rfl
                exact hnul List.mem_cons_self
          have hrest := ih hnul' pre' (by omega)
            ((parameter tok).elim map (setParameter map))
          have hfold : (parameters s).foldl setParameter map =
              (parameters s').foldl setParameter ((parameter tok).elim map (setParameter map)) := by
            rw [parameters, hpieces, List.filterMap_cons]
            cases parameter tok <;> rfl
          rw [hfold, ← hrest, ← hbuffer]
          simp only [parsePairs, hload, if_neg hc, setPair_spec map hnul, Option.bind_eq_bind,
            Option.bind_some]

theorem newFromStringParams_eq (signed : Bool) {params : List UInt8} (hparams : 0 ∉ params) :
    newFromStringParams signed params = some ((parameters params).foldl setParameter new) :=
  parsePairs_spec hparams [] (Nat.lt_succ_self _) new

/-! ## The map -/

theorem values_concat (ps : List (List UInt8 × List UInt8)) (p : List UInt8 × List UInt8) :
    values (ps ++ [p]) = Function.update (values ps) p.1 (some p.2) := by
  rw [values, List.foldl_concat]
  rfl

theorem values_eq_none_iff (ps : List (List UInt8 × List UInt8)) (k : List UInt8) :
    values ps k = none ↔ k ∉ ps.map Prod.fst := by
  induction ps using List.reverseRecOn with
  | nil => simp [values]
  | append_singleton ps p ih =>
      rw [values_concat, List.map_append, List.mem_append, not_or, ← ih]
      by_cases hk : k = p.1
      · subst hk
        simp
      · simp [hk]

theorem wellformed_setParameters (signed : Bool) (ps : List (List UInt8 × List UInt8)) :
    Wellformed (ps.foldl setParameter (new : HashMap (stringParams signed) (List UInt8))) := by
  induction ps using List.reverseRecOn with
  | nil => exact wellformed_new
  | append_singleton ps p ih =>
      rw [List.foldl_concat]
      exact ih.set (lawful_stringParams signed) p.1 p.2

theorem get_setParameters (signed : Bool) (ps : List (List UInt8 × List UInt8))
    (k : List UInt8) :
    (ps.foldl setParameter (new : HashMap (stringParams signed) (List UInt8))).get k =
      values ps k := by
  induction ps using List.reverseRecOn with
  | nil => rfl
  | append_singleton ps p ih =>
      have hget := (wellformed_setParameters signed ps).get_update
        (lawful_stringParams signed) (.set p.1 p.2) k
      rw [List.foldl_concat, values_concat]
      refine hget.trans ?_
      simp only [Update.key, Update.value, stringParams, stringEquals, beq_iff_eq]
      by_cases hk : k = p.1
      · subst hk
        rw [if_pos rfl, Function.update_self]
      · rw [if_neg (Ne.symm hk), Function.update_of_ne hk]
        exact ih

theorem size_setParameters (signed : Bool) (ps : List (List UInt8 × List UInt8)) :
    (ps.foldl setParameter (new : HashMap (stringParams signed) (List UInt8))).size =
      (ps.map Prod.fst).toFinset.card := by
  induction ps using List.reverseRecOn with
  | nil => rfl
  | append_singleton ps p ih =>
      have hfind : (HashMap.find (ps.foldl setParameter
          (new : HashMap (stringParams signed) (List UInt8))) p.1).isSome =
          decide (p.1 ∈ ps.map Prod.fst) := by
        rw [Bool.eq_iff_iff, decide_eq_true_iff, ← not_iff_not, ← values_eq_none_iff,
          ← get_setParameters signed, get_eq, Option.map_eq_none_iff, Bool.not_eq_true,
          Option.isSome_eq_false_iff, Option.isNone_iff_eq_none]
      have hkeys : ((ps ++ [p]).map Prod.fst).toFinset = insert p.1 (ps.map Prod.fst).toFinset := by
        ext k
        simp
      rw [List.foldl_concat, hkeys, setParameter, set_succeeding, HashMap.size, hfind]
      rw [HashMap.size] at ih
      by_cases hmem : p.1 ∈ ps.map Prod.fst
      · rw [Finset.insert_eq_of_mem (List.mem_toFinset.mpr hmem), ← ih]
        simp [hmem]
      · rw [Finset.card_insert_of_notMem (fun h => hmem (List.mem_toFinset.mp h)), ← ih]
        simp [hmem]

/-! ## Texts and maps -/

theorem parameters_format {ps : List (List UInt8 × List UInt8)}
    (hps : ∀ p ∈ ps, p.1 ≠ [] ∧ 59 ∉ p.1 ∧ 61 ∉ p.1 ∧ 59 ∉ p.2) : parameters (format ps) = ps := by
  induction ps with
  | nil => simp [parameters, format]
  | cons p ps ih =>
      obtain ⟨hne, hkey, heq, hvalue⟩ := hps p List.mem_cons_self
      have hpiece : 59 ∉ p.1 ++ 61 :: p.2 := by
        simp [hkey, hvalue]
      have hrest := ih fun q hq => hps q (List.mem_cons_of_mem p hq)
      have hformat : format (p :: ps) = (p.1 ++ 61 :: p.2) ++ 59 :: format ps := by
        simp [format]
      rw [parameters, hformat, pieces_append (by simp) hpiece, List.filterMap_cons,
        parameter_append hne heq]
      exact congrArg (p :: ·) hrest

/-- The values of parameters whose names are those of a map, each once. -/
theorem values_eq {ps : List (List UInt8 × List UInt8)} (hnodup : (ps.map Prod.fst).Nodup)
    {p : List UInt8 × List UInt8} (hp : p ∈ ps) : values ps p.1 = some p.2 := by
  induction ps using List.reverseRecOn with
  | nil => cases hp
  | append_singleton ps q ih =>
      rw [List.map_append, List.nodup_append] at hnodup
      obtain ⟨hnodup, -, hdisjoint⟩ := hnodup
      rw [values_concat]
      rcases List.mem_append.mp hp with hp | hp
      · have hne : p.1 ≠ q.1 :=
          hdisjoint p.1 (List.mem_map_of_mem hp) q.1 (by simp)
        rw [Function.update_of_ne hne]
        exact ih hnodup hp
      · obtain rfl := List.mem_singleton.mp hp
        rw [Function.update_self]

/-- The function returns for every string without NUL, and the map has the values of its
parameters and counts their names. If the string is written out of the pairs of a finite
map, in any order, the map that is returned is this one. -/
theorem string_params_parsed (signed : Bool) :
    (∀ params : List UInt8, 0 ∉ params →
      ∃ map, newFromStringParams signed params = some map ∧
        (∀ k, map.get k = values (parameters params) k) ∧
        map.size = ((parameters params).map Prod.fst).toFinset.card) ∧
    ∀ (f : List UInt8 → Option (List UInt8)) (ps : List (List UInt8 × List UInt8)),
      (∀ p, p ∈ ps ↔ f p.1 = some p.2) → ps.Nodup →
      (∀ p ∈ ps, p.1 ≠ [] ∧ 59 ∉ p.1 ∧ 61 ∉ p.1 ∧ 59 ∉ p.2 ∧ 0 ∉ p.1 ∧ 0 ∉ p.2) →
      ∃ map, newFromStringParams signed (format ps) = some map ∧ (∀ k, map.get k = f k) ∧
        map.size = ps.length := by
  constructor
  · intro params hparams
    exact ⟨_, newFromStringParams_eq signed hparams, get_setParameters signed _,
      size_setParameters signed _⟩
  · intro f ps hf hnodup hps
    have hnul : 0 ∉ format ps := by
      intro h0
      obtain ⟨p, hp, h0⟩ := List.mem_flatMap.mp h0
      obtain ⟨-, -, -, -, hkey, hvalue⟩ := hps p hp
      simp [hkey, hvalue] at h0
    have hparameters : parameters (format ps) = ps := by
      refine parameters_format fun p hp => ?_
      obtain ⟨hne, hkey, heq, hvalue, -⟩ := hps p hp
      exact ⟨hne, hkey, heq, hvalue⟩
    have hnames : (ps.map Prod.fst).Nodup := by
      refine List.Nodup.map_on ?_ hnodup
      intro p hp q hq heq
      have hvalue := (hf p).mp hp
      rw [heq, (hf q).mp hq] at hvalue
      exact Prod.ext heq (Option.some.inj hvalue).symm
    refine ⟨_, newFromStringParams_eq signed hnul, ?_, ?_⟩
    · intro k
      rw [get_setParameters, hparameters]
      cases hk : f k with
      | some v => exact values_eq hnames ((hf (k, v)).mpr hk)
      | none =>
          rw [values_eq_none_iff]
          intro hmem
          obtain ⟨p, hp, rfl⟩ := List.mem_map.mp hmem
          rw [(hf p).mp hp] at hk
          cases hk
    · rw [size_setParameters, hparameters, List.toFinset_card_of_nodup hnames, List.length_map]

-- `;;a=1;b;=2;a==3`
example : (newFromStringParams true
    [59, 59, 97, 61, 49, 59, 98, 59, 61, 50, 59, 97, 61, 61, 51]).map
      (fun map => (map.get [97], map.get [98], map.get [], map.size)) =
    some (some [61, 51], some [], none, 2) := by
  decide +kernel

end HashMap

end Osi
