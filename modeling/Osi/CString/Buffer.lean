import Mathlib.Data.List.Basic

/-!
# C strings in byte buffers

A buffer is a fixed number of bytes, a pointer into it is an index, and an
access outside it is a fault, `none`. The string at an index is what stands
before the next NUL. The functions of `string.h` are the loops over the bytes
that the standard describes; their specifications are stated for a buffer that
is written out as what stands before the index, the string, its NUL, and what
stands behind it. A specification therefore also says what is left alone.
-/

namespace CString

abbrev Buffer := List UInt8

variable {buffer buffer' pre s post : List UInt8} {c : UInt8} {i n : ℕ}

def load (buffer : Buffer) (i : ℕ) : Option UInt8 := buffer[i]?

def store (buffer : Buffer) (i : ℕ) (c : UInt8) : Option Buffer :=
  if i < buffer.length then some (buffer.set i c) else none

def scanFrom (stop : UInt8 → Bool) : List UInt8 → ℕ → Option ℕ
  | [], _ => none
  | c :: l, i => if stop c then some i else scanFrom stop l (i + 1)

/-- A loop that moves forward from the index `i` until `stop` holds. -/
def scan (stop : UInt8 → Bool) (buffer : Buffer) (i : ℕ) : Option ℕ :=
  scanFrom stop (buffer.drop i) i

def string (buffer : Buffer) (i : ℕ) : Option (List UInt8) := do
  let j ← scan (· == 0) buffer i
  return (buffer.drop i).take (j - i)

def strlen (buffer : Buffer) (i : ℕ) : Option ℕ := do
  let j ← scan (· == 0) buffer i
  return j - i

/-- `strchr`, for a character that is not NUL; the inner `none` is `NULL`. -/
def strchr (buffer : Buffer) (i : ℕ) (c : UInt8) : Option (Option ℕ) := do
  let j ← scan (fun x => x == c || x == 0) buffer i
  let x ← load buffer j
  return if x = c then some j else none

/-- The `n` bytes that `strncpy` writes: those of the string, then NULs. -/
def strncpyBytes : List UInt8 → ℕ → Option (List UInt8)
  | _, 0 => some []
  | [], _ + 1 => none
  | c :: l, n + 1 =>
      if c = 0 then some (List.replicate (n + 1) 0)
      else do
        let bytes ← strncpyBytes l n
        return c :: bytes

def strncpy (buffer source : Buffer) (i n : ℕ) : Option Buffer := do
  let bytes ← strncpyBytes (source.drop i) n
  if n ≤ buffer.length then some (bytes ++ buffer.drop n) else none

def strcpy (buffer : Buffer) (s : List UInt8) : Option Buffer :=
  if s.length < buffer.length then some (s ++ 0 :: buffer.drop (s.length + 1)) else none

/-! ## Access -/

theorem load_append (pre : List UInt8) (c : UInt8) (post : List UInt8) :
    load (pre ++ c :: post) pre.length = some c := by
  simp [load]

theorem store_append (pre : List UInt8) (x c : UInt8) (post : List UInt8) :
    store (pre ++ x :: post) pre.length c = some (pre ++ c :: post) := by
  simp [store]

/-- A NUL that is written into a string, or over its end, leaves what stands
behind the string alone. -/
theorem store_nul (pre s post : List UInt8) :
    ∃ u, u.length = s.length ∧
      store (pre ++ (s ++ 0 :: post)) pre.length 0 = some (pre ++ 0 :: (u ++ post)) := by
  cases s with
  | nil => exact ⟨[], rfl, store_append pre 0 0 post⟩
  | cons x s =>
      refine ⟨s ++ [0], by simp, ?_⟩
      rw [List.cons_append, store_append, List.append_assoc]
      rfl

theorem drop_append_length (pre post : List UInt8) : (pre ++ post).drop pre.length = post := by
  simp

/-! ## Loops -/

theorem scanFrom_append {stop : UInt8 → Bool} (hs : ∀ x ∈ s, stop x = false)
    (hc : stop c = true) (i : ℕ) : scanFrom stop (s ++ c :: post) i = some (i + s.length) := by
  induction s generalizing i with
  | nil => simp [scanFrom, hc]
  | cons x s ih =>
      have hx := hs x List.mem_cons_self
      have hrest := ih (fun y hy => hs y (List.mem_cons_of_mem x hy)) (i + 1)
      rw [List.cons_append, scanFrom, if_neg (by simp [hx]), hrest, List.length_cons]
      exact congrArg some (by omega)

/-- The loop stops behind the bytes that do not stop it. -/
theorem scan_append {stop : UInt8 → Bool} (hs : ∀ x ∈ s, stop x = false)
    (hc : stop c = true) (pre post : List UInt8) :
    scan stop (pre ++ (s ++ c :: post)) pre.length = some (pre ++ s).length := by
  rw [scan, drop_append_length, scanFrom_append hs hc, List.length_append]

theorem scan_nul (hs : 0 ∉ s) (pre post : List UInt8) :
    scan (· == 0) (pre ++ (s ++ 0 :: post)) pre.length = some (pre ++ s).length := by
  refine scan_append ?_ rfl pre post
  intro x hx
  rw [beq_eq_false_iff_ne]
  rintro rfl
  exact hs hx

theorem string_append (hs : 0 ∉ s) (pre post : List UInt8) :
    string (pre ++ (s ++ 0 :: post)) pre.length = some s := by
  simp [string, scan_nul hs]

theorem strlen_append (hs : 0 ∉ s) (pre post : List UInt8) :
    strlen (pre ++ (s ++ 0 :: post)) pre.length = some s.length := by
  simp [strlen, scan_nul hs]

/-- `strchr` finds the first occurrence in the string. -/
theorem strchr_append {a b : List UInt8} (ha : 0 ∉ a) (hc : c ∉ a) (pre post : List UInt8) :
    strchr (pre ++ ((a ++ c :: b) ++ post)) pre.length c = some (some (pre ++ a).length) := by
  have hstop : ∀ x ∈ a, (x == c || x == 0) = false := by
    intro x hx
    rw [Bool.or_eq_false_iff, beq_eq_false_iff_ne, beq_eq_false_iff_ne]
    exact ⟨fun h => hc (h ▸ hx), fun h => ha (h ▸ hx)⟩
  have hscan := scan_append hstop (by simp) pre (b ++ post) (c := c)
  have hload := load_append (pre ++ a) c (b ++ post)
  rw [List.append_assoc] at hload
  rw [List.append_assoc, List.cons_append, strchr]
  simp only [hscan, hload, Option.bind_eq_bind, Option.bind_some, if_true, Option.pure_def]

theorem strchr_of_notMem (hs : 0 ∉ s) (hc : c ∉ s) (hc0 : c ≠ 0) (pre post : List UInt8) :
    strchr (pre ++ (s ++ 0 :: post)) pre.length c = some none := by
  have hstop : ∀ x ∈ s, (x == c || x == 0) = false := by
    intro x hx
    rw [Bool.or_eq_false_iff, beq_eq_false_iff_ne, beq_eq_false_iff_ne]
    exact ⟨fun h => hc (h ▸ hx), fun h => hs (h ▸ hx)⟩
  have hscan := scan_append hstop (by simp) pre post (c := 0)
  have hload := load_append (pre ++ s) 0 post
  rw [List.append_assoc] at hload
  rw [strchr]
  simp only [hscan, hload, Option.bind_eq_bind, Option.bind_some, if_neg (Ne.symm hc0),
    Option.pure_def]

theorem strncpyBytes_append (hs : 0 ∉ s) (post : List UInt8) :
    strncpyBytes (s ++ post) s.length = some s := by
  induction s with
  | nil =>
      rw [List.nil_append, List.length_nil]
      cases post <;> rfl
  | cons x s ih =>
      have hx : x ≠ 0 := by
        rintro rfl
        exact hs List.mem_cons_self
      have hrest := ih fun h => hs (List.mem_cons_of_mem x h)
      rw [List.cons_append, List.length_cons, strncpyBytes, if_neg hx, hrest]
      rfl

/-- As many bytes as the string has: `strncpy` copies them and writes no NUL. -/
theorem strncpy_append (hs : 0 ∉ s) (hlen : s.length ≤ buffer.length)
    (pre post : List UInt8) :
    strncpy buffer (pre ++ (s ++ post)) pre.length s.length =
      some (s ++ buffer.drop s.length) := by
  rw [strncpy, drop_append_length, strncpyBytes_append hs]
  simp [hlen]

end CString
