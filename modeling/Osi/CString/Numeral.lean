import Mathlib.Data.List.TakeWhile
import Mathlib.Tactic.IntervalCases

/-!
# Numerals

The digits of a base, the value of a row of digits, and the unsigned numerals of C with
the base that their first characters tell: `0x` before hexadecimal digits, `0` before
octal ones, and decimal digits otherwise. `magnitude` reads the longest numeral that a
string starts with; `Unsigned` says which strings are a numeral as a whole, and what it is
worth.
-/

namespace CString

variable {base n : ℕ} {s digits : List UInt8}

/-- What a digit is worth in the bases up to 36; 36 for the characters that are no digit
in any base. -/
def digitValue (c : UInt8) : ℕ :=
  if 48 ≤ c ∧ c ≤ 57 then c.toNat - 48
  else if 97 ≤ c ∧ c ≤ 122 then c.toNat - 87
  else if 65 ≤ c ∧ c ≤ 90 then c.toNat - 55
  else 36

def isDigit (base : ℕ) (c : UInt8) : Bool := digitValue c < base

def numeral (base : ℕ) (cs : List UInt8) : ℕ :=
  cs.foldl (fun n c => n * base + digitValue c) 0

theorem numeral_concat (base : ℕ) (cs : List UInt8) (c : UInt8) :
    numeral base (cs ++ [c]) = numeral base cs * base + digitValue c := by
  simp [numeral]

theorem numeral_zero_cons (base : ℕ) (cs : List UInt8) :
    numeral base (48 :: cs) = numeral base cs := by
  simp [numeral, digitValue]

def splitBase (s : List UInt8) : ℕ × List UInt8 :=
  match s with
  | [] => (10, [])
  | c :: rest =>
      if c = 48 then
        match rest with
        | x :: d :: digits =>
            if (x = 120 ∨ x = 88) ∧ isDigit 16 d = true then (16, d :: digits) else (8, s)
        | _ => (8, s)
      else (10, s)

/-- The numeral at the beginning of a string and the rest of the string; `none` if there
is no digit. -/
def magnitude (s : List UInt8) : Option (ℕ × List UInt8) :=
  let (base, digits) := splitBase s
  if digits.takeWhile (isDigit base) = [] then none
  else some (numeral base (digits.takeWhile (isDigit base)), digits.dropWhile (isDigit base))

inductive Unsigned : List UInt8 → ℕ → Prop
  | decimal {c : UInt8} {cs : List UInt8} (hc : c ≠ 48)
      (hcs : ∀ d ∈ c :: cs, isDigit 10 d = true) : Unsigned (c :: cs) (numeral 10 (c :: cs))
  | octal {cs : List UInt8} (hcs : ∀ d ∈ cs, isDigit 8 d = true) :
      Unsigned (48 :: cs) (numeral 8 cs)
  | hexadecimal {x : UInt8} {cs : List UInt8} (hx : x = 120 ∨ x = 88) (hne : cs ≠ [])
      (hcs : ∀ d ∈ cs, isDigit 16 d = true) : Unsigned (48 :: x :: cs) (numeral 16 cs)

/-- A string is read to its end exactly if all that stands behind the sign of its base are
digits. -/
theorem magnitude_eq_some_iff (h : splitBase s = (base, digits)) :
    magnitude s = some (n, []) ↔
      digits ≠ [] ∧ (∀ c ∈ digits, isDigit base c = true) ∧ numeral base digits = n := by
  simp only [magnitude, h]
  constructor
  · intro hmagnitude
    split_ifs at hmagnitude with htake
    obtain ⟨hnumeral, hdrop⟩ := Prod.mk.inj (Option.some.inj hmagnitude)
    have hdigits := List.dropWhile_eq_nil_iff.mp hdrop
    rw [List.takeWhile_eq_self_iff.mpr hdigits] at htake hnumeral
    exact ⟨htake, hdigits, hnumeral⟩
  · rintro ⟨hne, hdigits, rfl⟩
    rw [List.takeWhile_eq_self_iff.mpr hdigits, List.dropWhile_eq_nil_iff.mpr hdigits, if_neg hne]

theorem splitBase_octal {cs : List UInt8} (hcs : ∀ d ∈ cs, isDigit 8 d = true) :
    splitBase (48 :: cs) = (8, 48 :: cs) := by
  rcases cs with _ | ⟨x, _ | ⟨d, cs⟩⟩
  · rfl
  · rfl
  · -- an octal digit is no `x`
    have hx : ¬ (x = 120 ∨ x = 88) := by
      rintro (rfl | rfl) <;> exact absurd (hcs _ List.mem_cons_self) (by decide)
    simp [splitBase, hx]

theorem Unsigned.magnitude_eq (h : Unsigned s n) : magnitude s = some (n, []) := by
  cases h with
  | @decimal c cs hc hcs =>
    have hsplit : splitBase (c :: cs) = (10, c :: cs) := by simp [splitBase, hc]
    exact (magnitude_eq_some_iff hsplit).mpr ⟨List.cons_ne_nil _ _, hcs, rfl⟩
  | @octal cs hcs =>
    refine (magnitude_eq_some_iff (splitBase_octal hcs)).mpr ⟨List.cons_ne_nil _ _, ?_, ?_⟩
    · intro c hc
      rcases List.mem_cons.mp hc with rfl | hc
      · decide
      · exact hcs c hc
    · exact numeral_zero_cons 8 cs
  | @hexadecimal x cs hx hne hcs =>
    obtain ⟨d, cs, rfl⟩ := List.exists_cons_of_ne_nil hne
    have hd : isDigit 16 d = true := hcs d List.mem_cons_self
    have hsplit : splitBase (48 :: x :: d :: cs) = (16, d :: cs) := by simp [splitBase, hx, hd]
    exact (magnitude_eq_some_iff hsplit).mpr ⟨hne, hcs, rfl⟩

/-- The three forms of a numeral, by what its first characters tell. -/
theorem splitBase_cases (s : List UInt8) :
    splitBase s = (10, s) ∧ s.head? ≠ some 48 ∨
      (∃ cs, s = 48 :: cs ∧ splitBase s = (8, s)) ∨
      ∃ x cs, (x = 120 ∨ x = 88) ∧ s = 48 :: x :: cs ∧ splitBase s = (16, cs) := by
  rcases s with _ | ⟨c, rest⟩
  · exact .inl ⟨rfl, by simp⟩
  · by_cases hc : c = 48
    · subst hc
      rcases rest with _ | ⟨x, _ | ⟨d, cs⟩⟩
      · exact .inr (.inl ⟨_, rfl, rfl⟩)
      · exact .inr (.inl ⟨_, rfl, rfl⟩)
      · by_cases hx : (x = 120 ∨ x = 88) ∧ isDigit 16 d = true
        · exact .inr (.inr ⟨x, d :: cs, hx.1, rfl, by simp [splitBase, hx]⟩)
        · exact .inr (.inl ⟨_, rfl, by simp [splitBase, hx]⟩)
    · exact .inl ⟨by simp [splitBase, hc], by simpa using hc⟩

theorem unsigned_of_magnitude (h : magnitude s = some (n, [])) : Unsigned s n := by
  rcases splitBase_cases s with ⟨hsplit, hhead⟩ | ⟨cs, rfl, hsplit⟩ | ⟨x, cs, hx, rfl, hsplit⟩
  · obtain ⟨hne, hdigits, rfl⟩ := (magnitude_eq_some_iff hsplit).mp h
    obtain ⟨c, cs, rfl⟩ := List.exists_cons_of_ne_nil hne
    exact .decimal (by simpa using hhead) hdigits
  · obtain ⟨-, hdigits, rfl⟩ := (magnitude_eq_some_iff hsplit).mp h
    rw [numeral_zero_cons]
    exact .octal fun d hd => hdigits d (List.mem_cons_of_mem _ hd)
  · obtain ⟨hne, hdigits, rfl⟩ := (magnitude_eq_some_iff hsplit).mp h
    exact .hexadecimal hx hne hdigits

theorem Unsigned.exists_cons (h : Unsigned s n) :
    ∃ c cs, s = c :: cs ∧ isDigit 10 c = true := by
  cases h with
  | @decimal c cs hc hcs => exact ⟨c, cs, rfl, hcs c List.mem_cons_self⟩
  | @octal cs hcs => exact ⟨48, cs, rfl, by decide⟩
  | @hexadecimal x cs hx hne hcs => exact ⟨48, x :: cs, rfl, by decide⟩

theorem isDigit_ten_iff {c : UInt8} : isDigit 10 c = true ↔ 48 ≤ c ∧ c ≤ 57 := by
  unfold isDigit digitValue
  simp only [UInt8.le_iff_toNat_le, UInt8.reduceToNat, decide_eq_true_iff]
  split_ifs <;> omega

theorem digitValue_of_decimal {c : UInt8} (h : 48 ≤ c ∧ c ≤ 57) :
    digitValue c = c.toNat - 48 :=
  if_pos h

/-! ### Decimal numbers -/

def decimalDigits (n : ℕ) : List UInt8 :=
  (Nat.toDigits 10 n).map fun c => UInt8.ofNat c.toNat

theorem digitChar_byte {d : ℕ} (hd : d < 10) :
    UInt8.ofNat d.digitChar.toNat = UInt8.ofNat (48 + d) := by
  interval_cases d <;> rfl

theorem decimalDigits_of_lt (h : n < 10) : decimalDigits n = [UInt8.ofNat (48 + n)] := by
  rw [decimalDigits, Nat.toDigits_of_lt_base h, List.map_singleton, digitChar_byte h]

theorem decimalDigits_of_le (h : 10 ≤ n) :
    decimalDigits n = decimalDigits (n / 10) ++ [UInt8.ofNat (48 + n % 10)] := by
  have hmod : n % 10 < 10 := Nat.mod_lt n (by decide)
  rw [decimalDigits, Nat.toDigits_of_base_le (by decide) h, List.map_append, List.map_singleton,
    digitChar_byte hmod]
  rfl

theorem toNat_digit {d : ℕ} (hd : d < 10) : (UInt8.ofNat (48 + d)).toNat = 48 + d := by
  rw [UInt8.toNat_ofNat']
  omega

theorem isDigit_digit {d : ℕ} (hd : d < 10) : isDigit 10 (UInt8.ofNat (48 + d)) = true := by
  rw [isDigit_ten_iff, UInt8.le_iff_toNat_le, UInt8.le_iff_toNat_le, toNat_digit hd]
  exact ⟨Nat.le_add_right 48 d, Nat.add_le_add_left (Nat.le_of_lt_succ hd) 48⟩

theorem digitValue_digit {d : ℕ} (hd : d < 10) : digitValue (UInt8.ofNat (48 + d)) = d := by
  rw [digitValue_of_decimal (isDigit_ten_iff.mp (isDigit_digit hd)), toNat_digit hd,
    Nat.add_sub_cancel_left]

/-- Printing and reading the digits of a number: they are digits, the first of them is a
zero only for zero itself, and they are worth the number. -/
theorem decimalDigits_spec (n : ℕ) :
    ∃ c cs, decimalDigits n = c :: cs ∧ (∀ d ∈ c :: cs, isDigit 10 d = true) ∧
      (c = 48 ↔ n = 0) ∧ numeral 10 (c :: cs) = n := by
  induction n using Nat.strong_induction_on with
  | _ n ih =>
    rcases Nat.lt_or_ge n 10 with hlt | hge
    · refine ⟨_, [], decimalDigits_of_lt hlt, ?_, ?_, ?_⟩
      · intro d hd
        rw [List.mem_singleton.mp hd]
        exact isDigit_digit hlt
      · rw [← UInt8.toNat_inj, toNat_digit hlt]
        exact ⟨fun h => by simpa using h, fun h => by rw [h]; rfl⟩
      · change 0 * 10 + digitValue _ = n
        rw [digitValue_digit hlt, Nat.zero_mul, Nat.zero_add]
    · have hmod : n % 10 < 10 := Nat.mod_lt n (by decide)
      obtain ⟨c, cs, heq, hdigits, hzero, hvalue⟩ := ih (n / 10) (by omega)
      refine ⟨c, cs ++ [UInt8.ofNat (48 + n % 10)], ?_, ?_, ?_, ?_⟩
      · rw [decimalDigits_of_le hge, heq, List.cons_append]
      · intro d hd
        rw [← List.cons_append] at hd
        rcases List.mem_append.mp hd with hd | hd
        · exact hdigits d hd
        · rw [List.mem_singleton.mp hd]
          exact isDigit_digit hmod
      · rw [hzero]
        omega
      · rw [← List.cons_append, numeral_concat, hvalue, digitValue_digit hmod]
        omega

theorem unsigned_decimalDigits (n : ℕ) : Unsigned (decimalDigits n) n := by
  obtain ⟨c, cs, heq, hdigits, hzero, hvalue⟩ := decimalDigits_spec n
  by_cases hn : n = 0
  · subst hn
    exact .octal (List.forall_mem_nil _)
  · have hne : c ≠ 48 := fun hc => hn (hzero.mp hc)
    have hdecimal := Unsigned.decimal hne hdigits
    rwa [hvalue, ← heq] at hdecimal

end CString
