import Osi.CString.Buffer

/-!
# Tokens

`strtok_r` cuts a string into tokens where it stands: it goes over the delimiters, and
over the token behind them, writes a NUL in the place of the next delimiter, and keeps
the index behind it for the next call. `pieces` are the non-empty parts of the string
between the delimiters. A call gives the first piece, in a buffer where the NUL behind
it is written, and keeps an index at which the string has the other pieces.
-/

namespace CString

variable {s tok : List UInt8} {delim : UInt8}

/-- `strtok_r` with one delimiter, from the index `i`: the buffer, the token or `NULL`,
and the index that is kept. -/
def strtokR (delim : UInt8) (buffer : Buffer) (i : ℕ) : Option (Buffer × Option ℕ × ℕ) := do
  let start ← scan (· != delim) buffer i
  let c ← load buffer start
  if c = 0 then return (buffer, none, start)
  let stop ← scan (fun x => x == delim || x == 0) buffer start
  let c ← load buffer stop
  if c = 0 then return (buffer, some start, stop)
  let buffer ← store buffer stop 0
  return (buffer, some start, stop + 1)

def pieces (delim : UInt8) (s : List UInt8) : List (List UInt8) :=
  (s.splitOn delim).filter (· ≠ [])

@[simp] theorem pieces_nil (delim : UInt8) : pieces delim [] = [] := by
  simp [pieces]

@[simp] theorem pieces_delim (delim : UInt8) (s : List UInt8) :
    pieces delim (delim :: s) = pieces delim s := by
  have hsplit := List.splitOn_append_cons_self_of_not_mem
    (List.not_mem_nil : delim ∉ ([] : List UInt8)) s
  rw [List.nil_append] at hsplit
  simp [pieces, hsplit]

theorem pieces_append (htok : tok ≠ []) (hdelim : delim ∉ tok) (s : List UInt8) :
    pieces delim (tok ++ delim :: s) = tok :: pieces delim s := by
  simp [pieces, List.splitOn_append_cons_self_of_not_mem hdelim, htok]

theorem pieces_single (htok : tok ≠ []) (hdelim : delim ∉ tok) : pieces delim tok = [tok] := by
  simp [pieces, List.splitOn_eq_singleton hdelim, htok]

/-- A string is empty, starts with a delimiter, or starts with a piece. -/
theorem pieces_cases (delim : UInt8) (s : List UInt8) :
    s = [] ∨ (∃ s', s = delim :: s') ∨
      ∃ tok, tok ≠ [] ∧ delim ∉ tok ∧ (s = tok ∨ ∃ s', s = tok ++ delim :: s') := by
  by_cases hmem : delim ∈ s
  · obtain ⟨tok, s', rfl, htok⟩ := List.eq_append_cons_of_mem hmem
    by_cases hnil : tok = []
    · subst hnil
      exact .inr (.inl ⟨s', rfl⟩)
    · exact .inr (.inr ⟨tok, hnil, htok, .inr ⟨s', rfl⟩⟩)
  · by_cases hnil : s = []
    · exact .inl hnil
    · exact .inr (.inr ⟨s, hnil, hmem, .inl rfl⟩)

/-! ## What a call gives -/

/-- What `strtok_r` leaves of the string `s`: `NULL`, or its first piece with a NUL behind
it, and an index where a string with the other pieces is. -/
inductive Tokenizes (delim : UInt8) (s : List UInt8) : Buffer × Option ℕ × ℕ → Prop
  | done (buffer : Buffer) (i : ℕ) (hpieces : pieces delim s = []) :
      Tokenizes delim s (buffer, none, i)
  | token (pre tok post pre' s' : List UInt8) (hpieces : pieces delim s = tok :: pieces delim s')
      (htok : tok ≠ []) (hnul : 0 ∉ tok) (hnul' : 0 ∉ s') (hlength : s'.length < s.length)
      (hbuffer : pre ++ (tok ++ 0 :: post) = pre' ++ (s' ++ [0])) :
      Tokenizes delim s (pre ++ (tok ++ 0 :: post), some pre.length, pre'.length)

theorem strtokR_cons (delim : UInt8) (pre s : List UInt8) :
    strtokR delim (pre ++ (delim :: s ++ [0])) pre.length =
      strtokR delim ((pre ++ [delim]) ++ (s ++ [0])) (pre ++ [delim]).length := by
  have hbuffer : (pre ++ [delim]) ++ (s ++ [0]) = pre ++ (delim :: s ++ [0]) := by simp
  have hscan : scan (· != delim) (pre ++ (delim :: s ++ [0])) pre.length =
      scan (· != delim) (pre ++ (delim :: s ++ [0])) (pre ++ [delim]).length := by
    rw [scan, drop_append_length, ← hbuffer, scan, drop_append_length, List.cons_append, scanFrom]
    simp
  rw [hbuffer, strtokR, strtokR, hscan]

theorem Tokenizes.cons {r : Buffer × Option ℕ × ℕ} (h : Tokenizes delim s r) :
    Tokenizes delim (delim :: s) r := by
  cases h with
  | done buffer i hpieces => exact .done buffer i (by rw [pieces_delim, hpieces])
  | token pre tok post pre' s' hpieces htok hnul hnul' hlength hbuffer =>
      refine .token pre tok post pre' s' ?_ htok hnul hnul' ?_ hbuffer
      · rw [pieces_delim, hpieces]
      · rw [List.length_cons]
        omega

section Token

variable {c : UInt8} {post : List UInt8}

/-- The loops of `strtok_r` over a token that stands at the index. -/
theorem scan_token (hc : c = delim ∨ c = 0) (htok : tok ≠ []) (hmem : delim ∉ tok)
    (hnul : 0 ∉ tok) (pre post : List UInt8) :
    scan (· != delim) (pre ++ (tok ++ c :: post)) pre.length = some pre.length ∧
      (∃ x, x ≠ 0 ∧ load (pre ++ (tok ++ c :: post)) pre.length = some x) ∧
      scan (fun x => x == delim || x == 0) (pre ++ (tok ++ c :: post)) pre.length =
        some (pre ++ tok).length := by
  refine ⟨?_, ?_, ?_⟩
  · cases tok with
    | nil => exact absurd rfl htok
    | cons x tok =>
        have hx : x ≠ delim := by
          rintro rfl
          exact hmem List.mem_cons_self
        rw [scan, drop_append_length, List.cons_append, scanFrom]
        simp [hx]
  · cases tok with
    | nil => exact absurd rfl htok
    | cons x tok =>
        refine ⟨x, ?_, load_append pre x _⟩
        rintro rfl
        exact hnul List.mem_cons_self
  · refine scan_append ?_ ?_ pre post
    · intro x hx
      rw [Bool.or_eq_false_iff, beq_eq_false_iff_ne, beq_eq_false_iff_ne]
      exact ⟨fun h => hmem (h ▸ hx), fun h => hnul (h ▸ hx)⟩
    · obtain rfl | rfl := hc
      · simp
      · simp

theorem strtokR_last (htok : tok ≠ []) (hmem : delim ∉ tok) (hnul : 0 ∉ tok)
    (pre post : List UInt8) :
    strtokR delim (pre ++ (tok ++ 0 :: post)) pre.length =
      some (pre ++ (tok ++ 0 :: post), some pre.length, (pre ++ tok).length) := by
  obtain ⟨hstart, ⟨x, hx, hload⟩, hstop⟩ := scan_token (.inr rfl) htok hmem hnul pre post
  have hend : load (pre ++ (tok ++ 0 :: post)) (pre ++ tok).length = some 0 := by
    rw [← List.append_assoc]
    exact load_append (pre ++ tok) 0 post
  simp only [strtokR, hstart, hload, hstop, hend, Option.bind_eq_bind, Option.bind_some,
    if_neg hx, if_true, Option.pure_def]

/-- The delimiter behind a token becomes a NUL. -/
theorem strtokR_token (hdelim : delim ≠ 0) (htok : tok ≠ []) (hmem : delim ∉ tok)
    (hnul : 0 ∉ tok) (pre post : List UInt8) :
    strtokR delim (pre ++ (tok ++ delim :: post)) pre.length =
      some (pre ++ (tok ++ 0 :: post), some pre.length, (pre ++ tok).length + 1) := by
  obtain ⟨hstart, ⟨x, hx, hload⟩, hstop⟩ := scan_token (.inl rfl) htok hmem hnul pre post
  have hend : load (pre ++ (tok ++ delim :: post)) (pre ++ tok).length = some delim := by
    rw [← List.append_assoc]
    exact load_append (pre ++ tok) delim post
  have hstore : store (pre ++ (tok ++ delim :: post)) (pre ++ tok).length 0 =
      some (pre ++ (tok ++ 0 :: post)) := by
    rw [← List.append_assoc, ← List.append_assoc]
    exact store_append (pre ++ tok) delim 0 post
  simp only [strtokR, hstart, hload, hstop, hend, hstore, Option.bind_eq_bind, Option.bind_some,
    if_neg hx, if_neg hdelim, Option.pure_def]

end Token

/-- `strtok_r` on a string gives its first piece. -/
theorem strtokR_spec (hdelim : delim ≠ 0) (hs : 0 ∉ s) (pre : List UInt8) :
    ∃ r, strtokR delim (pre ++ (s ++ [0])) pre.length = some r ∧ Tokenizes delim s r := by
  induction s generalizing pre with
  | nil =>
      refine ⟨(pre ++ [0], none, pre.length), ?_, .done _ _ (pieces_nil delim)⟩
      have hscan : scan (· != delim) (pre ++ [0]) pre.length = some pre.length := by
        rw [scan, drop_append_length, scanFrom]
        simp [Ne.symm hdelim]
      have hload : load (pre ++ [0]) pre.length = some 0 := load_append pre 0 []
      simp only [List.nil_append, strtokR, hscan, hload, Option.bind_eq_bind, Option.bind_some,
        if_true, Option.pure_def]
  | cons c s ih =>
      have hs' : 0 ∉ s := fun hmem => hs (List.mem_cons_of_mem c hmem)
      obtain hnil | ⟨s', hcons⟩ | ⟨tok, htok, hmem, hcases⟩ := pieces_cases delim (c :: s)
      · cases hnil
      · obtain ⟨rfl, rfl⟩ := List.cons_eq_cons.mp hcons
        obtain ⟨r, hr, htokenizes⟩ := ih hs' (pre ++ [c])
        exact ⟨r, (strtokR_cons c pre s).trans hr, htokenizes.cons⟩
      · have hnul : 0 ∉ tok := by
          obtain hlast | ⟨s', hmore⟩ := hcases
          · rwa [← hlast]
          · intro h0
            exact hs (hmore ▸ List.mem_append_left _ h0)
        obtain hlast | ⟨s', hmore⟩ := hcases
        · rw [hlast]
          refine ⟨_, strtokR_last htok hmem hnul pre [], ?_⟩
          refine .token pre tok [] (pre ++ tok) [] ?_ htok hnul List.not_mem_nil ?_ (by simp)
          · rw [pieces_single htok hmem, pieces_nil]
          · exact List.length_pos_of_ne_nil htok
        · have hs0 : 0 ∉ s' := by
            intro h0
            exact hs (hmore ▸ List.mem_append_right _ (List.mem_cons_of_mem delim h0))
          rw [hmore, List.append_assoc, List.cons_append]
          refine ⟨_, strtokR_token hdelim htok hmem hnul pre (s' ++ [0]), ?_⟩
          have htokenizes : Tokenizes delim (tok ++ delim :: s')
              (pre ++ (tok ++ 0 :: (s' ++ [0])), some pre.length, (pre ++ tok ++ [0]).length) := by
            refine .token pre tok _ (pre ++ tok ++ [0]) s' (pieces_append htok hmem s') htok hnul
              hs0 ?_ (by simp)
            simp only [List.length_append, List.length_cons]
            omega
          rwa [List.length_append, List.length_singleton] at htokenizes

end CString
