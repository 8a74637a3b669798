import Osi.CString.Buffer
import Osi.Config.Parsing

/-!
# The parser in its buffers

`config_parse` has two arrays of `1024` bytes on its stack. It reads a line into
the first, trims it by moving the start and writing a NUL behind the last
character, splits it by writing a NUL over the `=`, and copies section names into
the second. Here it is modelled on the arrays: pointers are indices, and every
access is checked. `Config/Text.lean` describes the same parser by what it does
to strings. The two agree on every file, whatever the arrays held before, and so
no index ever leaves its array.
-/

namespace Osi

open Collection CString

namespace Config

/-! ## The code -/

/-- The second loop of `trim`: `end_str` moves back over spaces, but not before
`str`. -/
def trimEnd (line : Buffer) (str : ℕ) : ℕ → Option ℕ
  | 0 => some 0
  | endStr + 1 =>
      if str < endStr + 1 then do
        let c ← load line (endStr + 1)
        if isSpace c then trimEnd line str endStr else some (endStr + 1)
      else some (endStr + 1)

/-- `trim`, on the string at the index `str` of the array: the array and the
index of the trimmed string. -/
def trimAt (line : Buffer) (str : ℕ) : Option (Buffer × ℕ) := do
  let str ← scan (fun c => !isSpace c) line str
  let c ← load line str
  if c = 0 then return (line, str)
  let len ← strlen line str
  let endStr ← trimEnd line str (str + len - 1)
  let line ← store line (endStr + 1) 0
  return (line, str)

structure Locals where
  line : Buffer
  sectionName : Buffer
  config : Config

/-- The call of `config_set_string` at the end of the loop. The two `trim`s work
on different parts of the array, so their order is not important. -/
def assignAt (locals : Locals) (linePtr split : ℕ) : Option Locals := do
  let line ← store locals.line split 0
  let (line, key) ← trimAt line linePtr
  let (line, value) ← trimAt line (split + 1)
  let name ← string locals.sectionName 0
  let key ← string line key
  let value ← string line value
  return { locals with line := line, config := locals.config.setString name key value }

/-- The branch of the loop for a line that starts with a bracket. -/
def sectionAt (locals : Locals) (linePtr : ℕ) : Option Locals := do
  let len ← strlen locals.line linePtr
  let last ← load locals.line (linePtr + len - 1)
  if last ≠ 93 then return locals
  let name ← strncpy locals.sectionName locals.line (linePtr + 1) (len - 2)
  let name ← store name (len - 2) 0
  return { locals with sectionName := name }

def parseTrimmed (locals : Locals) (linePtr : ℕ) : Option Locals := do
  let c ← load locals.line linePtr
  if c = 0 ∨ c = 35 then return locals
  if c = 91 then sectionAt locals linePtr
  else do
    let split ← strchr locals.line linePtr 61
    split.elim (some locals) (assignAt locals linePtr)

def parseLine (locals : Locals) : Option Locals := do
  let (line, linePtr) ← trimAt locals.line 0
  parseTrimmed { locals with line := line } linePtr

/-- `fgets` writes the bytes it has read to the front of the array, and a NUL. -/
def fill (locals : Locals) (bytes : List UInt8) : Option Locals := do
  if bytes.length < locals.line.length then
    return { locals with line := bytes ++ 0 :: locals.line.drop (bytes.length + 1) }
  else none

/-- The loop of `config_parse`, over what each `fgets` reads. -/
def parseLines : Locals → List (List UInt8) → Option Locals
  | locals, [] => some locals
  | locals, bytes :: rest => do
      let locals ← fill locals bytes
      let locals ← parseLine locals
      parseLines locals rest

/-- `config_parse`, with what the two arrays hold before; `none` if an index
leaves its array. -/
def configParseInPlace (line sectionName : Buffer) (config : Config) (file : List UInt8) :
    Option Config := do
  let sectionName ← strcpy sectionName defaultSection
  let locals ← parseLines { line := line, sectionName := sectionName, config := config }
    (buffers file)
  return locals.config

def arraySize : ℕ := 1024

/-! ## Trimming -/

/-- `end_str` stops at the last character that is not a space. -/
theorem trimEnd_append {pre t v post : List UInt8} {y : UInt8} {e : ℕ}
    (hy : isSpace y = false) (hv : ∀ x ∈ v, isSpace x = true)
    (he : e + 1 = (pre ++ (t ++ y :: v)).length) :
    trimEnd (pre ++ (t ++ y :: (v ++ post))) pre.length e = some (pre ++ t).length := by
  induction v using List.reverseRecOn generalizing e post with
  | nil =>
      obtain rfl : e = (pre ++ t).length := by
        simp only [List.length_append, List.length_cons, List.length_nil] at he ⊢
        omega
      have hload := load_append (pre ++ t) y post
      rw [List.append_assoc] at hload
      cases hlen : (pre ++ t).length with
      | zero => rfl
      | succ e =>
          rw [hlen] at hload
          rw [trimEnd]
          split
          · simp [hload, hy]
          · rfl
  | append_singleton v z ih =>
      obtain ⟨e, rfl⟩ : ∃ e', e = e' + 1 := by
        refine ⟨e - 1, ?_⟩
        simp only [List.length_append, List.length_cons, List.length_nil] at he
        omega
      have hz : isSpace z = true := hv z (by simp)
      have hlen : e + 1 = (pre ++ (t ++ y :: v)).length := by
        simp only [List.length_append, List.length_cons, List.length_nil] at he ⊢
        omega
      have hload := load_append (pre ++ (t ++ y :: v)) z post
      have hlist : pre ++ (t ++ y :: v) ++ z :: post = pre ++ (t ++ y :: (v ++ [z] ++ post)) := by
        simp
      have hlt : pre.length < e + 1 := by
        rw [hlen]
        simp only [List.length_append, List.length_cons]
        omega
      rw [hlist, ← hlen] at hload
      rw [trimEnd, if_pos hlt]
      simp only [hload, Option.bind_eq_bind, Option.bind_some, hz, if_true]
      rw [List.append_assoc]
      exact ih (fun x hx => hv x (by simp [hx])) hlen

/-- `trim` on spaces only: the start moves to the NUL. -/
theorem trimAt_spaces {w : List UInt8} (hw : ∀ x ∈ w, isSpace x = true)
    (pre post : List UInt8) :
    trimAt (pre ++ (w ++ 0 :: post)) pre.length =
      some (pre ++ (w ++ 0 :: post), (pre ++ w).length) := by
  have hscan : scan (fun c => !isSpace c) (pre ++ (w ++ 0 :: post)) pre.length =
      some (pre ++ w).length :=
    scan_append (fun x hx => by simp [hw x hx]) rfl pre post
  have hload := load_append (pre ++ w) 0 post
  rw [List.append_assoc] at hload
  rw [trimAt]
  simp only [hscan, hload, Option.bind_eq_bind, Option.bind_some, if_true, Option.pure_def]

/-- `trim` on a string with something between its spaces. -/
theorem trimAt_core {w t v : List UInt8} (hw : ∀ x ∈ w, isSpace x = true)
    (ht : Trimmed isSpace t) (hne : t ≠ []) (hv : ∀ x ∈ v, isSpace x = true)
    (ht0 : 0 ∉ t ++ v) (pre post : List UInt8) :
    ∃ u, u.length = v.length ∧
      trimAt (pre ++ (w ++ (t ++ (v ++ 0 :: post)))) pre.length =
        some (pre ++ w ++ (t ++ 0 :: (u ++ post)), (pre ++ w).length) := by
  obtain ⟨x, rest, hx⟩ := List.exists_cons_of_ne_nil hne
  obtain ⟨t', y, hy⟩ : ∃ t' y, t = t' ++ [y] :=
    ⟨_, _, (List.dropLast_append_getLast hne).symm⟩
  have hxs : isSpace x = false := ht.head x (by rw [hx]; rfl)
  have hys : isSpace y = false := ht.last y (by rw [hy, List.getLast?_concat])
  have hx0 : x ≠ 0 := by
    rintro rfl
    exact ht0 (by simp [hx])
  obtain ⟨u, hu, hstore⟩ := store_nul (pre ++ w ++ t) v post
  -- the start, the length and the end of the string
  have hscan : scan (fun c => !isSpace c) (pre ++ (w ++ x :: (rest ++ (v ++ 0 :: post))))
      pre.length = some (pre ++ w).length :=
    scan_append (fun x hx => by simp [hw x hx]) (by simp [hxs]) pre _
  have hload := load_append (pre ++ w) x (rest ++ (v ++ 0 :: post))
  have hlen := strlen_append ht0 (pre ++ w) post
  have hend : trimEnd (pre ++ w ++ (t' ++ y :: (v ++ 0 :: post))) (pre ++ w).length
      ((pre ++ w).length + (t ++ v).length - 1) = some (pre ++ w ++ t').length := by
    refine trimEnd_append hys hv ?_
    rw [hy]
    simp only [List.length_append, List.length_cons, List.length_nil]
    omega
  have hindex : (pre ++ w ++ t').length + 1 = (pre ++ w ++ t).length := by
    simp only [hy, List.length_append, List.length_singleton, Nat.add_assoc]
  have hcons : w ++ x :: (rest ++ (v ++ 0 :: post)) = w ++ (t ++ (v ++ 0 :: post)) := by
    simp [hx]
  have hmiddle : t' ++ y :: (v ++ 0 :: post) = t ++ (v ++ 0 :: post) := by simp [hy]
  rw [hcons] at hscan
  rw [List.append_assoc, hcons] at hload
  rw [List.append_assoc, List.append_assoc] at hlen
  rw [hmiddle, List.append_assoc] at hend
  rw [List.append_assoc, List.append_assoc, ← hindex] at hstore
  refine ⟨u, hu, ?_⟩
  rw [trimAt]
  simp only [hscan, hload, hlen, hend, hstore, Option.bind_eq_bind, Option.bind_some,
    if_neg hx0, Option.pure_def]
  rw [List.append_assoc (pre ++ w)]

/-- `trim` on the array: the trimmed string, ended by a NUL, stands where the
string was, and nothing outside the string is touched. -/
theorem trimAt_append {s : List UInt8} (hs : 0 ∉ s) (pre post : List UInt8) :
    ∃ w u, w.length + (trim s).length + u.length = s.length ∧
      trimAt (pre ++ (s ++ 0 :: post)) pre.length =
        some (pre ++ w ++ (trim s ++ 0 :: (u ++ post)), (pre ++ w).length) := by
  obtain ⟨w, v, hsplit, hw, hv, hnil⟩ := exists_trim_append isSpace s
  change s = w ++ (trim s ++ v) at hsplit
  have hlen : w.length + (trim s).length + v.length = s.length := by
    conv_rhs => rw [hsplit]
    simp only [List.length_append]
    omega
  by_cases hne : trim s = []
  · obtain rfl := hnil hne
    rw [hne, List.append_nil, List.append_nil] at hsplit
    refine ⟨w, [], hlen, ?_⟩
    rw [hne, hsplit, trimAt_spaces hw]
    simp
  · have hnul : (0 : UInt8) ∉ trim s ++ v := by
      intro hmem
      exact hs (by rw [hsplit]; exact List.mem_append_right w hmem)
    have htrimmed : Trimmed isSpace (trim s) := trimmed_trim
    obtain ⟨u, hu, htrim⟩ := trimAt_core hw htrimmed hne hv hnul pre post
    refine ⟨w, u, by omega, ?_⟩
    rw [← htrim]
    conv_lhs => rw [hsplit]
    simp only [List.append_assoc]

/-! ## One line -/

theorem nul_notMem_trim {s : Str} (hs : 0 ∉ s) : 0 ∉ trim s :=
  fun h => hs (mem_of_mem_trim h)

/-- A section name in brackets is copied without them. -/
theorem sectionAt_headerLine {locals : Locals} {name pre post : List UInt8}
    (hline : locals.line = pre ++ (headerLine name ++ 0 :: post)) (hname : 0 ∉ name)
    (hroom : name.length < locals.sectionName.length) :
    sectionAt locals pre.length =
      some { locals with
        sectionName := name ++ 0 :: locals.sectionName.drop (name.length + 1) } := by
  have hnul : 0 ∉ headerLine name := by simp [headerLine, hname]
  have hlen := strlen_append hnul pre post
  have hload := load_append (pre ++ 91 :: name) 93 (0 :: post)
  have hcopy : strncpy locals.sectionName (pre ++ [91] ++ (name ++ 93 :: 0 :: post))
      (pre ++ [91]).length name.length = some (name ++ locals.sectionName.drop name.length) :=
    strncpy_append hname hroom.le _ _
  have hstore := store_append name (locals.sectionName.get ⟨name.length, hroom⟩) 0
    (locals.sectionName.drop (name.length + 1))
  have hlast : pre ++ 91 :: name ++ 93 :: 0 :: post = pre ++ (headerLine name ++ 0 :: post) := by
    simp [headerLine]
  have hfirst : pre ++ [91] ++ (name ++ 93 :: 0 :: post) =
      pre ++ (headerLine name ++ 0 :: post) := by
    simp [headerLine]
  have hindex : (pre ++ 91 :: name).length = pre.length + (headerLine name).length - 1 := by
    simp [headerLine]
  have hcount : name.length = (headerLine name).length - 2 := by simp [headerLine]
  rw [hlast, hindex] at hload
  rw [hfirst, List.length_append, List.length_singleton] at hcopy
  rw [List.get_eq_getElem, ← List.drop_eq_getElem_cons hroom] at hstore
  rw [sectionAt, hline]
  simp only [hlen, hload, ← hcount, hcopy, hstore, Option.bind_eq_bind, Option.bind_some,
    ne_eq, not_true_eq_false, if_false, Option.pure_def]

/-- A line without the closing bracket changes nothing. -/
theorem sectionAt_unterminated {locals : Locals} {t pre post : List UInt8} {y : UInt8}
    (hline : locals.line = pre ++ (t ++ [y] ++ 0 :: post)) (hnul : 0 ∉ t ++ [y])
    (hy : y ≠ 93) : sectionAt locals pre.length = some locals := by
  have hlen := strlen_append hnul pre post
  have hload := load_append (pre ++ t) y (0 :: post)
  have hlast : pre ++ t ++ y :: 0 :: post = pre ++ (t ++ [y] ++ 0 :: post) := by simp
  have hindex : (pre ++ t).length = pre.length + (t ++ [y]).length - 1 := by
    simp only [List.length_append, List.length_singleton]
    omega
  rw [hlast, hindex] at hload
  rw [sectionAt, hline]
  simp only [hlen, hload, Option.bind_eq_bind, Option.bind_some, ne_eq, hy,
    not_false_eq_true, if_true, Option.pure_def]

/-- The two parts of the line are trimmed where they stand. -/
theorem assignAt_append {locals : Locals} {a b name pre post rest : List UInt8}
    (hline : locals.line = pre ++ (a ++ 61 :: b ++ 0 :: post)) (ha : 0 ∉ a) (hb : 0 ∉ b)
    (hsection : locals.sectionName = name ++ 0 :: rest) (hname : 0 ∉ name) :
    ∃ line, line.length = locals.line.length ∧
      assignAt locals pre.length (pre ++ a).length =
        some { locals with
          line := line
          config := locals.config.setString name (trim a) (trim b) } := by
  obtain ⟨w, u, hlen, htrim⟩ := trimAt_append ha pre (b ++ 0 :: post)
  -- what stands before the value from now on
  have hbefore : (pre ++ w ++ (trim a ++ 0 :: u)).length = (pre ++ a).length + 1 := by
    simp only [List.length_append, List.length_cons]
    omega
  obtain ⟨w', u', hlen', htrim'⟩ :=
    trimAt_append hb (pre ++ w ++ (trim a ++ 0 :: u)) post
  rw [hbefore] at htrim'
  have hkey := string_append (nul_notMem_trim ha) (pre ++ w)
    (u ++ (w' ++ (trim b ++ 0 :: (u' ++ post))))
  have hvalue := string_append (nul_notMem_trim hb) (pre ++ w ++ (trim a ++ 0 :: u) ++ w')
    (u' ++ post)
  have hstring := string_append hname [] rest
  have hstore := store_append (pre ++ a) 61 0 (b ++ 0 :: post)
  refine ⟨pre ++ w ++ (trim a ++ 0 :: u) ++ w' ++ (trim b ++ 0 :: (u' ++ post)), ?_, ?_⟩
  · rw [hline]
    simp only [List.length_append, List.length_cons]
    omega
  · simp only [List.append_assoc, List.cons_append, List.nil_append, List.length_nil]
      at hkey hvalue hstring hstore htrim htrim' hline ⊢
    rw [assignAt, hline, hsection]
    simp only [hstore, htrim, htrim', hkey, hvalue, hstring, Option.bind_eq_bind,
      Option.bind_some, Option.pure_def]

/-- The arrays have their size, the second one holds the name of the current
section, and the config is the same. -/
structure Holds (locals : Locals) (state : Parser) : Prop where
  line : locals.line.length = arraySize
  sectionName : locals.sectionName.length = arraySize
  current : ∃ rest, locals.sectionName = state.current ++ 0 :: rest
  nul : 0 ∉ state.current
  config : locals.config = state.config

theorem exists_cString_append (bytes rest : List UInt8) :
    ∃ post, bytes ++ 0 :: rest = cString bytes ++ 0 :: post := by
  have hsplit := List.takeWhile_append_dropWhile (p := (· != 0)) (l := bytes)
  cases hdrop : bytes.dropWhile (· != 0) with
  | nil =>
      refine ⟨rest, ?_⟩
      rw [hdrop, List.append_nil] at hsplit
      rw [cString, hsplit]
  | cons x post =>
      have hx := head_dropWhile (l := bytes) (p := (· != 0)) (x := x) (by rw [hdrop]; rfl)
      obtain rfl : x = 0 := bne_eq_false_iff_eq.mp hx
      refine ⟨post ++ 0 :: rest, ?_⟩
      conv_lhs => rw [← hsplit, hdrop]
      rw [List.append_assoc]
      rfl

theorem Holds.withLine {locals : Locals} {state : Parser} (h : Holds locals state)
    {line : Buffer} (hline : line.length = locals.line.length) :
    Holds { locals with line := line } state where
  line := hline.trans h.line
  sectionName := h.sectionName
  current := h.current
  nul := h.nul
  config := h.config

/-- On the trimmed line the loop does what `parseBuffer` says. -/
theorem Holds.parseTrimmed {locals : Locals} {state : Parser} (h : Holds locals state)
    {bytes pre post : List UInt8} (hline : locals.line = pre ++ (text bytes ++ 0 :: post)) :
    ∃ locals', parseTrimmed locals pre.length = some locals' ∧
      Holds locals' (parseBuffer state bytes) := by
  have hnul := nul_notMem_text bytes
  have hsame : readBuffer bytes = .ignored → Holds locals (parseBuffer state bytes) := by
    intro hread
    rw [parseBuffer, hread]
    exact h
  cases htext : text bytes with
  | nil =>
      have hload := load_append pre 0 post
      refine ⟨locals, ?_, hsame (readBuffer_blank htext)⟩
      rw [Config.parseTrimmed, hline, htext, List.nil_append, hload]
      simp
  | cons c t =>
      have hload := load_append pre c (t ++ 0 :: post)
      rw [htext] at hline hnul
      rw [← List.cons_append, ← hline] at hload
      have hc : c ≠ 0 := by
        rintro rfl
        exact hnul List.mem_cons_self
      rw [Config.parseTrimmed, hload]
      simp only [Option.bind_eq_bind, Option.bind_some, hc, false_or]
      by_cases hhash : c = 35
      · subst hhash
        exact ⟨locals, if_pos rfl, hsame (readBuffer_comment htext)⟩
      rw [if_neg hhash]
      by_cases hbracket : c = 91
      · subst hbracket
        rw [if_pos rfl]
        by_cases hlast : (91 :: t).getLast? = some 93
        · obtain ⟨name, hname⟩ := exists_headerLine hlast
          rw [hname] at hline hnul
          have hname0 : 0 ∉ name := fun hx => hnul (by simp [headerLine, hx])
          have hlength := congrArg List.length hline
          rw [h.line] at hlength
          simp only [List.length_append, List.length_cons, length_headerLine] at hlength
          have hroom : name.length < locals.sectionName.length := by
            rw [h.sectionName]
            omega
          refine ⟨_, sectionAt_headerLine hline hname0 hroom, ?_⟩
          rw [parseBuffer, readBuffer_section (htext.trans hname)]
          refine ⟨h.line, ?_, ⟨_, rfl⟩, hname0, h.config⟩
          rw [← h.sectionName]
          simp only [List.length_append, List.length_cons, List.length_drop]
          omega
        · obtain ⟨t', y, hty⟩ : ∃ t' y, 91 :: t = t' ++ [y] :=
            ⟨_, _, (List.dropLast_append_getLast (List.cons_ne_nil 91 t)).symm⟩
          have hy : y ≠ 93 := by
            rintro rfl
            exact hlast (by rw [hty, List.getLast?_concat])
          rw [hty] at hline hnul
          exact ⟨locals, sectionAt_unterminated hline hnul hy,
            hsame (readBuffer_unterminated htext hlast)⟩
      rw [if_neg hbracket]
      by_cases hsplit : (61 : UInt8) ∈ c :: t
      · obtain ⟨a, b, hab, ha⟩ := List.eq_append_cons_of_mem hsplit
        have hplain : Plain (text bytes) := by
          intro x hx
          rw [htext, List.head?_cons] at hx
          obtain rfl := Option.some.inj hx
          exact ⟨hhash, hbracket⟩
        rw [hab] at hline hnul
        have ha0 : 0 ∉ a := fun hx => hnul (by simp [hx])
        have hb0 : 0 ∉ b := fun hx => hnul (by simp [hx])
        obtain ⟨rest, hrest⟩ := h.current
        obtain ⟨line, hlength, hassign⟩ := assignAt_append hline ha0 hb0 hrest h.nul
        have hchr := strchr_append (b := b) ha0 ha pre (0 :: post)
        rw [← hline] at hchr
        rw [hchr, Option.bind_some, Option.elim_some]
        refine ⟨_, hassign, ?_⟩
        rw [parseBuffer, readBuffer_assignment (htext.trans hab) ha hplain]
        refine ⟨hlength.trans h.line, h.sectionName, ⟨rest, hrest⟩, h.nul, ?_⟩
        rw [h.config]
      · have hchr := strchr_of_notMem hnul hsplit (by decide) pre post
        rw [← hline] at hchr
        refine ⟨locals, ?_, hsame (readBuffer_noSeparator htext hbracket hsplit)⟩
        rw [hchr, Option.bind_some, Option.elim_none]

/-- The body of the loop does what `parseBuffer` says. -/
theorem Holds.parseLine {locals : Locals} {state : Parser} (h : Holds locals state)
    {bytes rest : List UInt8} (hline : locals.line = bytes ++ 0 :: rest) :
    ∃ locals', parseLine locals = some locals' ∧ Holds locals' (parseBuffer state bytes) := by
  obtain ⟨post, hpost⟩ := exists_cString_append bytes rest
  have hnul : 0 ∉ cString bytes := by
    intro hmem
    simpa using List.mem_takeWhile_imp hmem
  obtain ⟨w, u, hlen, htrim⟩ := trimAt_append hnul [] post
  rw [List.nil_append, List.nil_append, ← hpost, ← hline, List.length_nil] at htrim
  have hlength : (w ++ (text bytes ++ 0 :: (u ++ post))).length = locals.line.length := by
    rw [hline, hpost]
    change w.length + (text bytes).length + u.length = _ at hlen
    simp only [List.length_append, List.length_cons]
    omega
  obtain ⟨locals', hparse, hholds⟩ := (h.withLine hlength).parseTrimmed rfl
  refine ⟨locals', ?_, hholds⟩
  rw [Config.parseLine, htrim]
  exact hparse

/-! ## The file -/

/-- The loop does what the fold of `parseBuffer` says. -/
theorem Holds.parseLines {locals : Locals} {state : Parser} (h : Holds locals state)
    {bs : List (List UInt8)} (hbs : ∀ bytes ∈ bs, bytes.length ≤ lineRoom) :
    ∃ locals', parseLines locals bs = some locals' ∧
      Holds locals' (bs.foldl parseBuffer state) := by
  induction bs generalizing locals state with
  | nil => exact ⟨locals, rfl, h⟩
  | cons bytes bs ih =>
      have hroom : bytes.length < locals.line.length := by
        have hle := hbs bytes List.mem_cons_self
        rw [h.line]
        exact Nat.lt_succ_of_le hle
      have hlength : (bytes ++ 0 :: locals.line.drop (bytes.length + 1)).length =
          locals.line.length := by
        simp only [List.length_append, List.length_cons, List.length_drop]
        omega
      obtain ⟨locals₁, hparse, hholds⟩ := (h.withLine hlength).parseLine rfl
      obtain ⟨locals₂, hrest, hend⟩ := ih hholds fun b hb => hbs b (List.mem_cons_of_mem _ hb)
      refine ⟨locals₂, ?_, hend⟩
      rw [Config.parseLines, fill, if_pos hroom]
      simp only [Option.pure_def, Option.bind_eq_bind, Option.bind_some, hparse, hrest]

/-- `config_parse` on its arrays never leaves them, and gives what
`Config/Text.lean` says. -/
theorem configParseInPlace_eq {line sectionName : Buffer} (hline : line.length = arraySize)
    (hsection : sectionName.length = arraySize) (config : Config) (file : List UInt8) :
    configParseInPlace line sectionName config file = some (configParse config file) := by
  have hroom : defaultSection.length < sectionName.length := by
    rw [hsection]
    decide
  have hnul : 0 ∉ defaultSection := by decide
  have hholds : Holds
      { line := line
        sectionName := defaultSection ++ 0 :: sectionName.drop (defaultSection.length + 1)
        config := config }
      { current := defaultSection, config := config } := by
    refine ⟨hline, ?_, ⟨_, rfl⟩, hnul, rfl⟩
    rw [← hsection]
    simp only [List.length_append, List.length_cons, List.length_drop]
    omega
  have hlengths : ∀ bytes ∈ buffers file, bytes.length ≤ lineRoom := fun bytes hb =>
    (isBuffer_of_mem hb).length_le
  obtain ⟨locals, hparse, hend⟩ := hholds.parseLines hlengths
  rw [configParseInPlace, strcpy, if_pos hroom]
  simp only [Option.bind_eq_bind, Option.bind_some, hparse, Option.pure_def]
  rw [hend.config, configParse]

end Config

end Osi
