import Osi.Config.InPlace
import Osi.Config.Persistence
import Mathlib.Data.List.SplitOn

/-!
# The meaning of an INI file

The reference does not know of buffers, pointers or searches: a file is split at
its newlines, each line is trimmed and read on its own, and a pair is put into a
list of sections, each a list of pairs, where it replaces the value of its key or
else comes last. For files without NUL whose lines fit the buffer of the parser,
`config_parse` computes this meaning.
-/

namespace Osi

open Collection CString

namespace Config

namespace Reference

abbrev Document := List (Str × List (Str × Str))

/-- The value under a key is changed where it stands; a new key comes last. -/
def put {κ ν : Type*} [DecidableEq κ] (k : κ) (f : Option ν → ν) :
    List (κ × ν) → List (κ × ν)
  | [] => [(k, f none)]
  | (k', v) :: l => if k' = k then (k', f (some v)) :: l else (k', v) :: put k f l

def setPair (document : Document) (name key value : Str) : Document :=
  put name (fun pairs => put key (fun _ => value) (pairs.getD [])) document

structure State where
  current : Str
  document : Document

def readLine (state : State) (line : List UInt8) : State :=
  let l := trim line
  if l = [] ∨ l.head? = some 35 then state
  else if l.head? = some 91 then
    if l.getLast? = some 93 then { state with current := (l.drop 1).dropLast } else state
  else if 61 ∈ l then
    { state with
      document := setPair state.document state.current
        (trim (l.take (l.idxOf 61))) (trim (l.drop (l.idxOf 61 + 1))) }
  else state

def parse (file : List UInt8) : Document :=
  ((file.splitOn 10).foldl readLine { current := defaultSection, document := [] }).document

end Reference

open Reference

def document (config : Config) : Document :=
  config.sections.map fun sec => (sec.name, sec.entries.map fun e => (e.key, e.value))

/-! ## Putting a pair -/

/-- A change of the first element with the key, read as a change of pairs. -/
theorem map_modifyFirst_eq_put {α ν : Type*} {f : α → Str} {view : α → ν} {k : Str}
    {change : α → α} {g : Option ν → ν} (hkey : ∀ a, f (change a) = f a)
    (hview : ∀ a, view (change a) = g (some (view a))) {l : List α}
    (hl : lookup f streq k l ≠ none) :
    (modifyFirst f streq k change l).map (fun a => (f a, view a)) =
      put k g (l.map fun a => (f a, view a)) := by
  induction l with
  | nil => exact absurd rfl hl
  | cons a l ih =>
      rw [modifyFirst, List.map_cons, put]
      by_cases ha : f a = k
      · rw [if_pos ha, if_pos (by simp [ha]), List.map_cons, hkey, hview]
      · rw [if_neg ha, if_neg (by simp [ha]), List.map_cons]
        congr 1
        refine ih fun hnone => hl ?_
        rw [lookup_streq_eq_none_iff] at hnone ⊢
        simp only [List.map_cons, List.mem_cons, not_or]
        exact ⟨Ne.symm ha, hnone⟩

/-- A new element at the end, read as a new pair. -/
theorem map_concat_eq_put {α ν : Type*} (f : α → Str) (view : α → ν) (g : Option ν → ν)
    {k : Str} {a : α} (hkey : f a = k) (hview : view a = g none) {l : List α}
    (hl : lookup f streq k l = none) :
    (l ++ [a]).map (fun a => (f a, view a)) = put k g (l.map fun a => (f a, view a)) := by
  induction l with
  | nil => simp [put, hkey, hview]
  | cons b l ih =>
      rw [lookup_streq_eq_none_iff, List.map_cons, List.mem_cons, not_or,
        ← lookup_streq_eq_none_iff] at hl
      rw [List.cons_append, List.map_cons, List.map_cons, put, if_neg (Ne.symm hl.1), ih hl.2]

theorem map_setEntry (key value : Str) (entries : List Entry) :
    (setEntry key value entries).map (fun e => (e.key, e.value)) =
      put key (fun _ => value) (entries.map fun e => (e.key, e.value)) := by
  unfold setEntry
  cases hfind : lookup Entry.key streq key entries with
  | none =>
      exact map_concat_eq_put Entry.key Entry.value (fun _ => value) rfl rfl hfind
  | some e =>
      exact map_modifyFirst_eq_put (key_setValue value) (fun _ => rfl) (by simp [hfind])

theorem document_setString (config : Config) (name key value : Str) :
    (config.setString name key value).document = setPair config.document name key value := by
  cases hfind : config.sectionFind name with
  | none =>
      have hlookup : lookup Section.name streq name config.sections = none := hfind
      rw [document, setString_of_new hfind]
      refine map_concat_eq_put Section.name
        (fun sec => sec.entries.map fun e => (e.key, e.value))
        (fun pairs => put key (fun _ => value) (pairs.getD [])) ?_ ?_ hlookup
      · rfl
      · rfl
  | some sec =>
      have hview : ∀ sec : Section,
          (sec.mapEntries (setEntry key value)).entries.map (fun e => (e.key, e.value)) =
            put key (fun _ => value)
              ((some (sec.entries.map fun e => (e.key, e.value))).getD []) := by
        intro sec
        exact map_setEntry key value sec.entries
      simp only [document, setString, hfind]
      refine map_modifyFirst_eq_put (name_mapEntries _) hview ?_
      change config.sectionFind name ≠ none
      simp [hfind]

/-! ## Reading a line -/

structure Agrees (parser : Parser) (state : Reference.State) : Prop where
  current : parser.current = state.current
  document : parser.config.document = state.document

theorem take_idxOf {a b : Str} (ha : 61 ∉ a) :
    (a ++ 61 :: b).take ((a ++ 61 :: b).idxOf 61) = a ∧
      (a ++ 61 :: b).drop ((a ++ 61 :: b).idxOf 61 + 1) = b := by
  have hidx : (a ++ 61 :: b).idxOf 61 = a.length := by
    rw [List.idxOf_append_of_notMem ha, List.idxOf_cons_self, Nat.add_zero]
  rw [hidx]
  simp

/-- The two agree on a line, with or without its newline. -/
theorem Agrees.line {parser : Parser} {state : Reference.State} (h : Agrees parser state)
    {l : List UInt8} (hnul : 0 ∉ l) : Agrees (parseBuffer parser l) (readLine state l) := by
  have htrim : text l = trim l := text_eq hnul
  unfold readLine
  rw [← htrim]
  have hsame : readBuffer l = .ignored → Agrees (parseBuffer parser l) state := by
    intro hread
    rw [parseBuffer, hread]
    exact h
  cases htext : text l with
  | nil =>
      rw [if_pos (Or.inl rfl)]
      exact hsame (readBuffer_blank htext)
  | cons c t =>
      simp only [List.head?_cons, Option.some.injEq, reduceCtorEq, false_or]
      by_cases hhash : c = 35
      · subst hhash
        rw [if_pos rfl]
        exact hsame (readBuffer_comment htext)
      rw [if_neg hhash]
      by_cases hbracket : c = 91
      · subst hbracket
        rw [if_pos rfl]
        by_cases hlast : (91 :: t).getLast? = some 93
        · obtain ⟨name, hname⟩ := exists_headerLine hlast
          rw [if_pos hlast, hname, parseBuffer, readBuffer_section (htext.trans hname)]
          refine ⟨?_, h.document⟩
          simp [headerLine]
        · rw [if_neg hlast]
          exact hsame (readBuffer_unterminated htext hlast)
      rw [if_neg hbracket]
      by_cases hsplit : (61 : UInt8) ∈ c :: t
      · obtain ⟨a, b, hab, ha⟩ := List.eq_append_cons_of_mem hsplit
        obtain ⟨htake, hdrop⟩ := take_idxOf (b := b) ha
        have hplain : Plain (text l) := by
          intro x hx
          rw [htext, List.head?_cons] at hx
          obtain rfl := Option.some.inj hx
          exact ⟨hhash, hbracket⟩
        rw [if_pos hsplit, parseBuffer, readBuffer_assignment (htext.trans hab) ha hplain]
        refine ⟨h.current, ?_⟩
        simp only [hab, htake, hdrop]
        rw [document_setString, h.document, h.current]
      · rw [if_neg hsplit]
        exact hsame (readBuffer_noSeparator htext hbracket hsplit)

/-! ## The lines of a file -/

/-- `fgets` on a last line without newline. -/
theorem fgets_last {n : ℕ} {l : List UInt8} (hl : 10 ∉ l) (hlen : l.length ≤ n) :
    fgets n l = (l, []) := by
  induction l generalizing n with
  | nil => cases n <;> rfl
  | cons b l ih =>
      obtain ⟨m, rfl⟩ : ∃ m, n = m + 1 := ⟨n - 1, by rw [List.length_cons] at hlen; omega⟩
      have hb : b ≠ 10 := by
        rintro rfl
        exact hl List.mem_cons_self
      rw [fgets, if_neg hb, ih (fun h => hl (List.mem_cons_of_mem b h))
        (by rw [List.length_cons] at hlen; omega)]

/-- Reading the buffers of a file and reading its lines keep the two in
agreement. -/
theorem Agrees.file {parser : Parser} {state : Reference.State} (h : Agrees parser state)
    {file : List UInt8} (hnul : 0 ∉ file)
    (hlines : ∀ l ∈ file.splitOn 10, l.length ≤ 1022) :
    Agrees ((buffers file).foldl parseBuffer parser)
      ((file.splitOn 10).foldl readLine state) := by
  induction hn : file.length using Nat.strong_induction_on generalizing file parser state with
  | _ n ih =>
      by_cases hmem : 10 ∈ file
      · obtain ⟨l, rest, rfl, hl⟩ := List.eq_append_cons_of_mem hmem
        rw [List.splitOn_append_cons_self_of_not_mem hl] at hlines ⊢
        have hlen : l.length < lineRoom := Nat.lt_succ_of_le (hlines l List.mem_cons_self)
        have hl0 : 0 ∉ l := fun hx => hnul (by simp [hx])
        rw [buffers_line hl hlen, List.foldl_cons, List.foldl_cons, parseBuffer,
          readBuffer_newline]
        refine ih rest.length ?_ (h.line hl0) (fun hx => hnul (by simp [hx]))
          (fun l' hl' => hlines l' (List.mem_cons_of_mem l hl')) rfl
        rw [← hn]
        simp only [List.length_append, List.length_cons]
        omega
      · rw [List.splitOn_eq_singleton hmem] at hlines ⊢
        have hlen : file.length ≤ lineRoom :=
          (hlines file (List.mem_singleton_self file)).trans (by decide)
        have hline := h.line hnul
        by_cases hfile : file = []
        · subst hfile
          exact hline
        · rw [buffers_eq hfile, fgets_last hmem hlen]
          exact hline

/-- On every file without NUL whose lines are at most `1022` bytes long,
`config_parse` into an empty config computes the meaning of the file, whatever
its arrays hold before, and no index leaves them. -/
theorem config_parse_eq_reference (file : List UInt8) (hnul : 0 ∉ file)
    (hlines : ∀ l ∈ file.splitOn 10, l.length ≤ 1022) (line sectionName : Buffer)
    (hline : line.length = arraySize) (hsection : sectionName.length = arraySize) :
    (configParseInPlace line sectionName newEmpty file).map document =
      some (Reference.parse file) := by
  have hagrees : Agrees { current := defaultSection, config := newEmpty }
      { current := defaultSection, document := [] } := ⟨rfl, rfl⟩
  rw [configParseInPlace_eq hline hsection, Option.map_some, configParse,
    (hagrees.file hnul hlines).document]
  rfl

/-- The lines `[ a ]`, `x = 1 `, `[b`, `#=`, `=v`, `[ a ]`, an all-blank line and
`x =`, the last one without newline. -/
def mixedLines : List UInt8 :=
  [91, 32, 97, 32, 93, 10, 120, 32, 61, 32, 49, 32, 10, 91, 98, 10, 35, 61, 10, 61, 118, 10,
    91, 32, 97, 32, 93, 10, 32, 9, 10, 120, 32, 61]

theorem config_parse_eq_reference_mixedLines :
    (configParseInPlace (List.replicate arraySize 255) (List.replicate arraySize 255) newEmpty
      mixedLines).map document =
      some [([32, 97, 32], [([120], []), ([], [118])])] :=
  config_parse_eq_reference mixedLines (by decide) (by decide) _ _ List.length_replicate
    List.length_replicate

end Config

end Osi
