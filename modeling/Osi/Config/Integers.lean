import Osi.CString.Numeral
import Osi.Config.Store
import Osi.Config.Text

/-!
# Reading integers

`config_get_int` reads a value with `strtol` in base `0`, narrows the `long` to an `int`,
and takes the number if `strtol` came to the end of the value. It does not ask whether
there was a number at all, nor whether the number is one of an `int`. So it recognises the
integers among the values that are not empty and that, where they are an integer literal,
are one of an `int`.
-/

namespace Osi

open CString

namespace Config

def splitSign (s : Str) : Bool × Str :=
  match s with
  | [] => (false, [])
  | c :: rest => if c = 45 then (true, rest) else if c = 43 then (false, rest) else (false, s)

def toLong (n : ℤ) : ℤ := max (-2 ^ 63) (min (2 ^ 63 - 1) n)

/-- `strtol(s, &endptr, 0)`: the value, and the string at `endptr`. Where there is no number
`endptr` is the whole string. -/
def strtol (s : Str) : ℤ × Str :=
  let (negative, u) := splitSign (s.dropWhile isSpace)
  match magnitude u with
  | none => (0, s)
  | some (n, rest) => (toLong (if negative then -(n : ℤ) else n), rest)

/-- `config_get_int`; `*endptr` is the NUL at the end of the value. -/
def getInt (config : Config) (name key : Str) (defValue : Int32) : Int32 :=
  match config.entryFind name key with
  | none => defValue
  | some entry =>
      let (ret, endptr) := strtol entry.value
      if endptr = [] then Int32.ofInt ret else defValue

/-- An integer literal of base `0`: white space, a sign or none, and an unsigned numeral. -/
inductive IntegerLiteral : Str → ℤ → Prop
  | plain {spaces u : Str} {n : ℕ} (hspaces : ∀ c ∈ spaces, isSpace c = true)
      (hu : Unsigned u n) : IntegerLiteral (spaces ++ u) n
  | plus {spaces u : Str} {n : ℕ} (hspaces : ∀ c ∈ spaces, isSpace c = true)
      (hu : Unsigned u n) : IntegerLiteral (spaces ++ 43 :: u) n
  | minus {spaces u : Str} {n : ℕ} (hspaces : ∀ c ∈ spaces, isSpace c = true)
      (hu : Unsigned u n) : IntegerLiteral (spaces ++ 45 :: u) (-n)

def InIntRange (n : ℤ) : Prop := -2 ^ 31 ≤ n ∧ n < 2 ^ 31

/-- The result for a value and a default: the number of a literal that is one of an `int`, and
the default in every other case. -/
structure Recognised (value : Str) (defValue result : Int32) : Prop where
  integer : ∀ n, IntegerLiteral value n → InIntRange n → result.toInt = n
  otherwise : (∀ n, IntegerLiteral value n → ¬ InIntRange n) → result = defValue

/-! ### `strtol` -/

theorem splitSign_unsigned {u : Str} {n : ℕ} (hu : Unsigned u n) : splitSign u = (false, u) := by
  obtain ⟨c, cs, rfl, hc⟩ := hu.exists_cons
  have hminus : c ≠ 45 := by
    rintro rfl
    exact absurd hc (by decide)
  have hplus : c ≠ 43 := by
    rintro rfl
    exact absurd hc (by decide)
  simp [splitSign, hminus, hplus]

theorem isSpace_of_isDigit {c : UInt8} (hc : isDigit 10 c = true) : isSpace c = false := by
  rw [isDigit_ten_iff, UInt8.le_iff_toNat_le, UInt8.le_iff_toNat_le] at hc
  unfold isSpace
  simp only [Bool.or_eq_false_iff, beq_eq_false_iff_ne, Bool.and_eq_false_iff,
    decide_eq_false_iff_not, ne_eq, ← UInt8.toNat_inj, UInt8.le_iff_toNat_le,
    UInt8.reduceToNat] at hc ⊢
  omega

/-- The white space before a number is skipped, and the number is read to its end. -/
theorem strtol_eq {spaces rest u : Str} {c : UInt8} {negative : Bool} {n : ℕ}
    (hspaces : ∀ c ∈ spaces, isSpace c = true) (hc : isSpace c = false)
    (hsign : splitSign (c :: rest) = (negative, u)) (hu : Unsigned u n) :
    strtol (spaces ++ c :: rest) = (toLong (if negative then -(n : ℤ) else n), []) := by
  have hdrop : (spaces ++ c :: rest).dropWhile isSpace = c :: rest := by
    rw [List.dropWhile_append_of_pos hspaces, List.dropWhile_cons_of_neg (by simp [hc])]
  simp only [strtol, hdrop, hsign, hu.magnitude_eq]

theorem strtol_of_literal {s : Str} {n : ℤ} (h : IntegerLiteral s n) :
    strtol s = (toLong n, []) := by
  cases h with
  | plain hspaces hu =>
    have hsign := splitSign_unsigned hu
    obtain ⟨c, cs, rfl, hc⟩ := hu.exists_cons
    rw [strtol_eq hspaces (isSpace_of_isDigit hc) hsign hu, if_neg Bool.false_ne_true]
  | @plus _ u _ hspaces hu =>
    have hsign : splitSign (43 :: u) = (false, u) := rfl
    rw [strtol_eq hspaces rfl hsign hu, if_neg Bool.false_ne_true]
  | @minus _ u _ hspaces hu =>
    have hsign : splitSign (45 :: u) = (true, u) := rfl
    rw [strtol_eq hspaces rfl hsign hu, if_pos rfl]

theorem literal_of_strtol {s : Str} (h : (strtol s).2 = []) :
    s = [] ∨ ∃ n, IntegerLiteral s n := by
  unfold strtol at h
  cases hmagnitude : magnitude (splitSign (s.dropWhile isSpace)).2 with
  | none =>
    simp only [hmagnitude] at h
    exact .inl h
  | some result =>
    obtain ⟨n, rest⟩ := result
    simp only [hmagnitude] at h
    subst h
    have hu := unsigned_of_magnitude hmagnitude
    have hspaces : ∀ c ∈ s.takeWhile isSpace, isSpace c = true := fun c => List.mem_takeWhile_imp
    rw [← List.takeWhile_append_dropWhile (p := isSpace) (l := s)]
    refine .inr ?_
    cases hdrop : s.dropWhile isSpace with
    | nil =>
      rw [hdrop] at hu
      obtain ⟨c, cs, hcons, -⟩ := hu.exists_cons
      cases hcons
    | cons c rest =>
      rw [hdrop] at hu
      simp only [splitSign] at hu
      split_ifs at hu with hminus hplus
      · subst hminus
        exact ⟨_, .minus hspaces hu⟩
      · subst hplus
        exact ⟨_, .plus hspaces hu⟩
      · exact ⟨_, .plain hspaces hu⟩

/-! ### `config_get_int` -/

theorem getInt_of_read {config : Config} {name key value : Str}
    (h : config.read name key = some value) (defValue : Int32) :
    config.getInt name key defValue =
      if (strtol value).2 = [] then Int32.ofInt (strtol value).1 else defValue := by
  obtain ⟨entry, hentry, rfl⟩ := Option.map_eq_some_iff.mp h
  simp only [getInt, hentry]

theorem toLong_of_inIntRange {n : ℤ} (h : InIntRange n) : toLong n = n := by
  obtain ⟨hlow, hhigh⟩ := h
  unfold toLong
  omega

theorem eq_of_toLong_eq {m n : ℤ} (hm : InIntRange m) (h : toLong n = m) : n = m := by
  obtain ⟨hlow, hhigh⟩ := hm
  unfold toLong at h
  omega

theorem not_integerLiteral_nil (n : ℤ) : ¬ IntegerLiteral [] n := by
  intro h
  generalize hs : ([] : Str) = s at h
  cases h with
  | plain _ hu =>
    obtain ⟨c, cs, rfl, -⟩ := hu.exists_cons
    exact absurd hs.symm (by simp)
  | plus _ _ => exact absurd hs.symm (by simp)
  | minus _ _ => exact absurd hs.symm (by simp)

/-- For a stored value `config_get_int` recognises the integers, whatever the default is,
exactly if the value is not empty and is no integer literal outside the range of an `int`. -/
theorem getInt_recognises_iff (config : Config) (name key value : Str)
    (h : config.read name key = some value) :
    (∀ defValue, Recognised value defValue (config.getInt name key defValue)) ↔
      value ≠ [] ∧ ∀ n, IntegerLiteral value n → InIntRange n := by
  constructor
  · intro hall
    refine ⟨?_, fun n hn => ?_⟩
    · rintro rfl
      have hone := (hall 1).otherwise fun n hn => absurd hn (not_integerLiteral_nil n)
      rw [getInt_of_read h] at hone
      exact absurd hone (by decide)
    · by_contra hrange
      have hstrtol := strtol_of_literal hn
      -- whatever the default is, the result is the narrowed number
      have hresult : ∀ defValue, config.getInt name key defValue = Int32.ofInt (toLong n) := by
        intro defValue
        rw [getInt_of_read h, hstrtol, if_pos rfl]
      have hnone : ∀ m, IntegerLiteral value m → ¬ InIntRange m := by
        intro m hm hmrange
        have hlong : toLong n = m := by
          rw [← toLong_of_inIntRange hmrange]
          exact congrArg Prod.fst (hstrtol.symm.trans (strtol_of_literal hm))
        exact hrange (eq_of_toLong_eq hmrange hlong ▸ hmrange)
      have hzero := (hall 0).otherwise hnone
      have hone := (hall 1).otherwise hnone
      rw [hresult] at hzero hone
      exact absurd (hzero.symm.trans hone) (by decide)
  · rintro ⟨hne, hrange⟩ defValue
    rw [getInt_of_read h]
    constructor
    · intro n hn hint
      rw [strtol_of_literal hn, if_pos rfl, toLong_of_inIntRange hint]
      exact Int32.toInt_ofInt_of_le hint.1 hint.2
    · intro hnone
      refine if_neg fun hend => ?_
      rcases literal_of_strtol hend with hnil | ⟨n, hn⟩
      · exact hne hnil
      · exact hnone n hn (hrange n hn)

def holding (value : Str) : Config := newEmpty.setString [115] [107] value

def negativeHex : Str := [32, 45, 48, 88, 49, 102]

theorem getInt_recognises_negativeHex :
    (holding negativeHex).getInt [115] [107] 7 = -31 ∧
      ∀ defValue, Recognised negativeHex defValue
        ((holding negativeHex).getInt [115] [107] defValue) := by
  refine ⟨by decide, (getInt_recognises_iff _ _ _ _ (by decide)).mpr ⟨by decide, fun n hn => ?_⟩⟩
  have hlong : toLong n = -31 := congrArg Prod.fst (strtol_of_literal hn).symm
  have hrange : InIntRange (-31) := by
    unfold InIntRange
    decide
  rw [eq_of_toLong_eq hrange hlong]
  exact hrange

def tooLarge : Str := [52, 50, 57, 52, 57, 54, 55, 50, 57, 55]

/-- The empty value is read as `0`, and `2 ^ 32 + 1` as `1`, whatever the default is. -/
theorem getInt_misreads :
    (holding []).getInt [115] [107] 7 = 0 ∧
      ¬ Recognised [] 7 ((holding []).getInt [115] [107] 7) ∧
      (holding tooLarge).getInt [115] [107] 7 = 1 ∧
      ¬ Recognised tooLarge 7 ((holding tooLarge).getInt [115] [107] 7) := by
  have hempty : (holding []).getInt [115] [107] 7 = 0 := by decide
  have hlarge : (holding tooLarge).getInt [115] [107] 7 = 1 := by decide
  refine ⟨hempty, fun h => ?_, hlarge, fun h => ?_⟩
  · have hseven := h.otherwise fun n hn => absurd hn (not_integerLiteral_nil n)
    rw [hempty] at hseven
    exact absurd hseven (by decide)
  · have hseven := h.otherwise fun n hn hrange => ?_
    · rw [hlarge] at hseven
      exact absurd hseven (by decide)
    · have hlong : (4294967297 : ℤ) = toLong n := congrArg Prod.fst (strtol_of_literal hn)
      rw [toLong_of_inIntRange hrange] at hlong
      rw [← hlong] at hrange
      exact absurd hrange.2 (by decide)

end Config

end Osi
