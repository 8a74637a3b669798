import Osi.Config.Text
import Osi.Config.Store

/-!
# What the parser reads

The buffers of a file are cut at newlines and at `1023` bytes. What
`config_parse` makes of a buffer depends on the trimmed string in it only
(`text`), and the names, keys and values it takes from a buffer are clean: they
hold no NUL and no newline, keys and values are trimmed, keys hold no `=` and
start like no comment and no section name, and together they fit into a buffer.
-/

namespace Osi

open Collection

namespace Config

/-! ## Buffers -/

theorem fgets_line (n : ℕ) {l : List UInt8} (hl : 10 ∉ l) (rest : List UInt8) :
    fgets n (l ++ 10 :: rest) =
      if l.length < n then (l ++ [10], rest) else (l.take n, l.drop n ++ 10 :: rest) := by
  induction l generalizing n with
  | nil =>
      cases n with
      | zero => rfl
      | succ n => simp [fgets]
  | cons b l ih =>
      cases n with
      | zero => simp [fgets]
      | succ n =>
          have hb : b ≠ 10 := by
            rintro rfl
            exact hl List.mem_cons_self
          have hl' : 10 ∉ l := fun h => hl (List.mem_cons_of_mem b h)
          rw [List.cons_append, fgets, if_neg hb, ih n hl', List.length_cons]
          by_cases hlt : l.length < n
          · rw [if_pos hlt, if_pos (by omega)]
            rfl
          · rw [if_neg hlt, if_neg (by omega)]
            rfl

theorem fgets_append (n : ℕ) (file : List UInt8) :
    (fgets n file).1 ++ (fgets n file).2 = file := by
  fun_induction fgets n file with
  | case1 file => rfl
  | case2 n => rfl
  | case3 n file => rfl
  | case4 n b file hb line rest heq ih => simpa [heq] using ih

theorem length_fgets_le (n : ℕ) (file : List UInt8) : (fgets n file).1.length ≤ n := by
  fun_induction fgets n file with
  | case1 file => rfl
  | case2 n => exact Nat.zero_le _
  | case3 n file => exact Nat.succ_le_succ (Nat.zero_le n)
  | case4 n b file hb line rest heq ih =>
      rw [heq] at ih
      exact Nat.succ_le_succ ih

/-- A newline can only be the last byte `fgets` reads. -/
theorem fgets_newline (n : ℕ) (file : List UInt8) :
    ∃ l, 10 ∉ l ∧ ((fgets n file).1 = l ∨ (fgets n file).1 = l ++ [10]) := by
  fun_induction fgets n file with
  | case1 file => exact ⟨[], by simp, Or.inl rfl⟩
  | case2 n => exact ⟨[], by simp, Or.inl rfl⟩
  | case3 n file => exact ⟨[], by simp, Or.inr rfl⟩
  | case4 n b file hb line rest heq ih =>
      obtain ⟨l, hl, hline⟩ := ih
      rw [heq] at hline
      refine ⟨b :: l, ?_, ?_⟩
      · intro hmem
        rcases List.mem_cons.mp hmem with rfl | hmem
        · exact hb rfl
        · exact hl hmem
      · rcases hline with hline | hline
        · exact Or.inl (by simpa using hline)
        · exact Or.inr (by simpa using hline)

theorem length_rest_lt {n : ℕ} (hn : 0 < n) {file : List UInt8} (hfile : file ≠ []) :
    (fgets n file).2.length < file.length := by
  have hsplit := congrArg List.length (fgets_append n file)
  rw [List.length_append] at hsplit
  have hpos : 0 < (fgets n file).1.length := by
    obtain ⟨n, rfl⟩ : ∃ m, n = m + 1 := ⟨n - 1, by omega⟩
    cases file with
    | nil => exact absurd rfl hfile
    | cons b file =>
        rw [fgets]
        split <;> simp
  omega

/-- With enough iterations for the bytes of the file, the number does not
matter. -/
theorem buffersFrom_eq {n m : ℕ} {file : List UInt8} (hn : file.length ≤ n)
    (hm : file.length ≤ m) : buffersFrom n file = buffersFrom m file := by
  induction n generalizing m file with
  | zero =>
      obtain rfl : file = [] := List.length_eq_zero_iff.mp (by omega)
      cases m <;> simp [buffersFrom]
  | succ n ih =>
      by_cases hfile : file = []
      · subst hfile
        cases m <;> simp [buffersFrom]
      · have hlt := length_rest_lt (n := lineRoom) (by decide) hfile
        have hpos := List.length_pos_iff.mpr hfile
        obtain ⟨m, rfl⟩ : ∃ k, m = k + 1 := ⟨m - 1, by omega⟩
        rw [buffersFrom, buffersFrom, if_neg hfile, if_neg hfile]
        exact congrArg _ (ih (by omega) (by omega))

theorem buffers_eq {file : List UInt8} (hfile : file ≠ []) :
    buffers file = (fgets lineRoom file).1 :: buffers (fgets lineRoom file).2 := by
  have hlt := length_rest_lt (n := lineRoom) (by decide) hfile
  obtain ⟨n, hn⟩ : ∃ n, file.length = n + 1 :=
    ⟨file.length - 1, by have := List.length_pos_iff.mpr hfile; omega⟩
  rw [buffers, hn, buffersFrom, if_neg hfile]
  exact congrArg _ (buffersFrom_eq (by omega) le_rfl)

/-- A line that leaves room for its newline is one buffer. -/
theorem buffers_line {l : List UInt8} (hl : 10 ∉ l) (hlen : l.length < lineRoom)
    (rest : List UInt8) : buffers (l ++ 10 :: rest) = (l ++ [10]) :: buffers rest := by
  rw [buffers_eq (by simp), fgets_line lineRoom hl, if_pos hlen]

/-- A line longer than a buffer and shorter than two is cut into two buffers. -/
theorem buffers_long_line {l : List UInt8} (hl : 10 ∉ l) (hlen : lineRoom ≤ l.length)
    (hlen' : l.length < 2 * lineRoom) (rest : List UInt8) :
    buffers (l ++ 10 :: rest) =
      l.take lineRoom :: (l.drop lineRoom ++ [10]) :: buffers rest := by
  have hdrop : 10 ∉ l.drop lineRoom := fun h => hl (List.mem_of_mem_drop h)
  rw [buffers_eq (by simp), fgets_line lineRoom hl, if_neg (by omega),
    buffers_line hdrop (by rw [List.length_drop]; omega)]

structure IsBuffer (buffer : List UInt8) : Prop where
  length_le : buffer.length ≤ lineRoom
  newline : ∃ l, 10 ∉ l ∧ (buffer = l ∨ buffer = l ++ [10])

theorem isBuffer_of_mem {file buffer : List UInt8} (h : buffer ∈ buffers file) :
    IsBuffer buffer := by
  induction hn : file.length using Nat.strong_induction_on generalizing file with
  | _ n ih =>
      by_cases hfile : file = []
      · subst hfile
        cases h
      · rw [buffers_eq hfile] at h
        rcases List.mem_cons.mp h with rfl | h
        · exact ⟨length_fgets_le _ _, fgets_newline _ _⟩
        · exact ih _ (hn ▸ length_rest_lt (n := lineRoom) (by decide) hfile) h rfl

/-! ## The string in a buffer -/

def text (buffer : List UInt8) : Str := trim (cString buffer)

theorem cString_eq {s : List UInt8} (hs : 0 ∉ s) : cString s = s := by
  rw [cString, List.takeWhile_eq_self_iff]
  intro b hb
  simp only [bne_iff_ne, ne_eq]
  rintro rfl
  exact hs hb

theorem mem_of_mem_cString {s : List UInt8} {b : UInt8} (h : b ∈ cString s) : b ∈ s :=
  (List.takeWhile_prefix _).mem h

theorem text_eq {s : List UInt8} (hs : 0 ∉ s) : text s = trim s := by
  rw [text, cString_eq hs]

theorem cString_append {s : List UInt8} (hs : 0 ∈ s) (r : List UInt8) :
    cString (s ++ r) = cString s := by
  have hshort : ¬ (s.takeWhile (· != 0)).length = s.length := by
    intro hlen
    have hall := List.takeWhile_eq_self_iff.mp ((List.takeWhile_prefix _).eq_of_length hlen)
    simpa using hall 0 hs
  rw [cString, List.takeWhile_append, if_neg hshort, cString]

/-- The newline at the end of a buffer is trimmed away, or hidden by a NUL. -/
theorem text_newline (l : List UInt8) : text (l ++ [10]) = text l := by
  by_cases hl : (0 : UInt8) ∈ l
  · rw [text, cString_append hl, text]
  · rw [text_eq hl, text_eq (by simp [hl]), trim, trim_concat (by decide), trim]

theorem nul_notMem_text (buffer : List UInt8) : 0 ∉ text buffer := by
  intro h
  have hmem : (0 : UInt8) ∈ cString buffer := mem_of_mem_trim h
  simpa using List.mem_takeWhile_imp hmem

theorem trimmed_text (buffer : List UInt8) : Trimmed isSpace (text buffer) := trimmed_trim

theorem length_text_le (buffer : List UInt8) : (text buffer).length ≤ buffer.length :=
  length_trim_le.trans (List.takeWhile_prefix _).length_le

theorem IsBuffer.newline_notMem_text {buffer : List UInt8} (h : IsBuffer buffer) :
    10 ∉ text buffer := by
  have hsub : ∀ {l : List UInt8}, 10 ∉ l → 10 ∉ text l := by
    intro l hl hmem
    exact hl (mem_of_mem_cString (mem_of_mem_trim hmem))
  obtain ⟨l, hl, rfl | rfl⟩ := h.newline
  · exact hsub hl
  · rw [text_newline]
    exact hsub hl

/-! ## Reading a buffer -/

theorem readBuffer_congr {buffer buffer' : List UInt8} (h : text buffer = text buffer') :
    readBuffer buffer = readBuffer buffer' := by
  unfold text at h
  unfold readBuffer
  rw [h]

theorem readBuffer_newline (l : List UInt8) : readBuffer (l ++ [10]) = readBuffer l :=
  readBuffer_congr (text_newline l)

theorem readBuffer_blank {buffer : List UInt8} (h : text buffer = []) :
    readBuffer buffer = .ignored := by
  unfold text at h
  unfold readBuffer
  rw [h]

theorem readBuffer_section {buffer : List UInt8} {name : Str}
    (h : text buffer = headerLine name) : readBuffer buffer = .sectionName name := by
  have hlast : (91 :: (name ++ [93])).getLast? = some 93 :=
    List.getLast?_concat (l := 91 :: name)
  unfold text headerLine at h
  unfold readBuffer
  rw [h]
  simp [hlast]

theorem splitAt_eq {a b : Str} (ha : 61 ∉ a) :
    (a ++ 61 :: b).takeWhile (· != 61) = a ∧
      ((a ++ 61 :: b).dropWhile (· != 61)).drop 1 = b := by
  have hall : ∀ x ∈ a, (x != 61) = true := by
    intro x hx
    simp only [bne_iff_ne, ne_eq]
    rintro rfl
    exact ha hx
  constructor
  · rw [List.takeWhile_append_of_pos hall, List.takeWhile_cons_of_neg (by simp),
      List.append_nil]
  · rw [List.dropWhile_append_of_pos hall, List.dropWhile_cons_of_neg (by simp)]
    rfl

/-- A string does not look like a comment or a section name. -/
def Plain (s : Str) : Prop := ∀ x, s.head? = some x → x ≠ 35 ∧ x ≠ 91

instance (s : Str) : Decidable (Plain s) :=
  match s with
  | [] => isTrue (by simp [Plain])
  | x :: _ => decidable_of_iff (x ≠ 35 ∧ x ≠ 91) (by simp [Plain])

theorem readBuffer_assignment {buffer : List UInt8} {a b : Str}
    (h : text buffer = a ++ 61 :: b) (ha : 61 ∉ a) (hplain : Plain (text buffer)) :
    readBuffer buffer = .assignment (trim a) (trim b) := by
  obtain ⟨htake, hdrop⟩ := splitAt_eq (b := b) ha
  have hmem : (61 : UInt8) ∈ a ++ 61 :: b := by simp
  rw [h] at hplain
  unfold text at h
  unfold readBuffer
  rw [h]
  cases hab : a ++ 61 :: b with
  | nil => simp at hab
  | cons c rest =>
      rw [hab] at htake hdrop hmem hplain
      obtain ⟨hhash, hbracket⟩ := hplain c rfl
      simp only [if_neg hhash, if_neg hbracket, if_pos hmem, htake, hdrop]

theorem readBuffer_comment {buffer : List UInt8} {t : Str} (h : text buffer = 35 :: t) :
    readBuffer buffer = .ignored := by
  unfold text at h
  unfold readBuffer
  rw [h]
  exact if_pos rfl

theorem readBuffer_unterminated {buffer : List UInt8} {t : Str} (h : text buffer = 91 :: t)
    (hlast : (91 :: t).getLast? ≠ some 93) : readBuffer buffer = .ignored := by
  unfold text at h
  unfold readBuffer
  rw [h]
  simp [hlast]

theorem readBuffer_noSeparator {buffer : List UInt8} {c : UInt8} {t : Str}
    (h : text buffer = c :: t) (hbracket : c ≠ 91) (hsplit : 61 ∉ c :: t) :
    readBuffer buffer = .ignored := by
  unfold text at h
  unfold readBuffer
  rw [h]
  simp only [if_neg hbracket, if_neg hsplit, ite_self]

theorem exists_headerLine {t : Str} (h : (91 :: t).getLast? = some 93) :
    ∃ name, 91 :: t = headerLine name := by
  have ht : t ≠ [] := by
    rintro rfl
    simp at h
  rw [List.getLast?_cons_of_ne_nil ht, List.getLast?_eq_getLast_of_ne_nil ht] at h
  have hconcat := List.dropLast_append_getLast ht
  rw [Option.some.inj h] at hconcat
  exact ⟨t.dropLast, by rw [headerLine, List.cons_append, hconcat]⟩

theorem readBuffer_cases (buffer : List UInt8) :
    readBuffer buffer = .ignored ∨
      (∃ name, text buffer = headerLine name ∧ readBuffer buffer = .sectionName name) ∨
      ∃ a b, text buffer = a ++ 61 :: b ∧ 61 ∉ a ∧ Plain (text buffer) ∧
        readBuffer buffer = .assignment (trim a) (trim b) := by
  cases htext : text buffer with
  | nil => exact Or.inl (readBuffer_blank htext)
  | cons c t =>
      by_cases hhash : c = 35
      · subst hhash
        exact Or.inl (readBuffer_comment htext)
      by_cases hbracket : c = 91
      · subst hbracket
        by_cases hlast : (91 :: t).getLast? = some 93
        · obtain ⟨name, hname⟩ := exists_headerLine hlast
          exact Or.inr (Or.inl ⟨name, hname, readBuffer_section (htext.trans hname)⟩)
        · exact Or.inl (readBuffer_unterminated htext hlast)
      by_cases hsplit : (61 : UInt8) ∈ c :: t
      · obtain ⟨a, b, hab, ha⟩ := List.eq_append_cons_of_mem hsplit
        have hplain : Plain (text buffer) := by
          intro x hx
          rw [htext, List.head?_cons] at hx
          obtain rfl := Option.some.inj hx
          exact ⟨hhash, hbracket⟩
        exact Or.inr (Or.inr ⟨a, b, hab, ha, htext ▸ hplain,
          readBuffer_assignment (htext.trans hab) ha hplain⟩)
      · exact Or.inl (readBuffer_noSeparator htext hbracket hsplit)

/-! ## Clean strings -/

structure CleanName (name : Str) : Prop where
  nul : 0 ∉ name
  newline : 10 ∉ name

structure CleanValue (value : Str) : Prop where
  nul : 0 ∉ value
  newline : 10 ∉ value
  trimmed : Trimmed isSpace value

structure CleanKey (key : Str) : Prop extends CleanValue key where
  separator : 61 ∉ key
  plain : Plain key

instance (name : Str) : Decidable (CleanName name) :=
  decidable_of_iff (0 ∉ name ∧ 10 ∉ name)
    ⟨fun h => ⟨h.1, h.2⟩, fun h => ⟨h.nul, h.newline⟩⟩

instance (value : Str) : Decidable (CleanValue value) :=
  decidable_of_iff (0 ∉ value ∧ 10 ∉ value ∧ Trimmed isSpace value)
    ⟨fun h => ⟨h.1, h.2.1, h.2.2⟩, fun h => ⟨h.nul, h.newline, h.trimmed⟩⟩

instance (key : Str) : Decidable (CleanKey key) :=
  decidable_of_iff (CleanValue key ∧ 61 ∉ key ∧ Plain key)
    ⟨fun h => ⟨h.1, h.2.1, h.2.2⟩, fun h => ⟨h.toCleanValue, h.separator, h.plain⟩⟩

/-- What comes out of an assignment is clean and fits, with the separator, into
a buffer. -/
theorem IsBuffer.clean_assignment {buffer : List UInt8} (h : IsBuffer buffer)
    {key value : Str} (hread : readBuffer buffer = .assignment key value) :
    CleanKey key ∧ CleanValue value ∧ key.length + 1 + value.length ≤ lineRoom := by
  obtain hig | ⟨name, -, hsec⟩ | ⟨a, b, htext, ha, hplain, hassign⟩ := readBuffer_cases buffer
  · rw [hig] at hread
    cases hread
  · rw [hsec] at hread
    cases hread
  · rw [hassign] at hread
    obtain ⟨rfl, rfl⟩ := Line.assignment.inj hread
    have hnul := nul_notMem_text buffer
    have hnewline := h.newline_notMem_text
    have hlen := (length_text_le buffer).trans h.length_le
    have hhead := (trimmed_text buffer).head
    rw [htext] at hnul hnewline hlen hhead hplain
    have hsub : ∀ x ∈ trim a, x ∈ a := fun x hx => mem_of_mem_trim hx
    have hsub' : ∀ x ∈ trim b, x ∈ b := fun x hx => mem_of_mem_trim hx
    refine ⟨⟨⟨?_, ?_, trimmed_trim⟩, fun hx => ha (hsub _ hx), ?_⟩,
      ⟨?_, ?_, trimmed_trim⟩, ?_⟩
    · exact fun hx => hnul (List.mem_append_left _ (hsub _ hx))
    · exact fun hx => hnewline (List.mem_append_left _ (hsub _ hx))
    · -- the line starts with the key, if there is one
      intro x hx
      cases a with
      | nil => cases hx
      | cons y a =>
          have hy : isSpace y = false := hhead y rfl
          rw [trim, head_trim, List.dropWhile_cons_of_neg (by simp [hy])] at hx
          exact hplain x hx
    · exact fun hx => hnul (List.mem_append_right _ (List.mem_cons_of_mem _ (hsub' _ hx)))
    · exact fun hx =>
        hnewline (List.mem_append_right _ (List.mem_cons_of_mem _ (hsub' _ hx)))
    · have hkey : (trim a).length ≤ a.length := length_trim_le
      have hvalue : (trim b).length ≤ b.length := length_trim_le
      rw [List.length_append, List.length_cons] at hlen
      omega

theorem IsBuffer.clean_section {buffer : List UInt8} (h : IsBuffer buffer) {name : Str}
    (hread : readBuffer buffer = .sectionName name) :
    CleanName name ∧ name.length + 2 ≤ lineRoom := by
  obtain hig | ⟨name', htext, hsec⟩ | ⟨a, b, -, -, -, hassign⟩ := readBuffer_cases buffer
  · rw [hig] at hread
    cases hread
  · rw [hsec] at hread
    obtain rfl := Line.sectionName.inj hread
    have hnul := nul_notMem_text buffer
    have hnewline := h.newline_notMem_text
    have hlen := (length_text_le buffer).trans h.length_le
    rw [htext, length_headerLine] at hlen
    rw [htext, headerLine] at hnul hnewline
    refine ⟨⟨?_, ?_⟩, hlen⟩
    · exact fun hx => hnul (by simp [hx])
    · exact fun hx => hnewline (by simp [hx])
  · rw [hassign] at hread
    cases hread

/-! ## Assignments -/

structure Assignment where
  name : Str
  key : Str
  value : Str
  deriving DecidableEq

def assignments : (current : Str) → List (List UInt8) → List Assignment
  | _, [] => []
  | current, buffer :: rest =>
      match readBuffer buffer with
      | .ignored => assignments current rest
      | .sectionName name => assignments name rest
      | .assignment key value => ⟨current, key, value⟩ :: assignments current rest

def fileAssignments (file : List UInt8) : List Assignment :=
  assignments defaultSection (buffers file)

def Assignment.op (a : Assignment) : Op := .setString a.name a.key a.value

def assign (config : Config) (a : Assignment) : Config :=
  config.setString a.name a.key a.value

theorem after_map_op (l : List Assignment) :
    after (l.map Assignment.op) = l.foldl assign newEmpty := by
  rw [after, Transition.calls_fst, List.foldl_map]
  rfl

theorem foldl_parseBuffer (current : Str) (config : Config) (bs : List (List UInt8)) :
    (bs.foldl parseBuffer { current := current, config := config }).config =
      (assignments current bs).foldl assign config := by
  induction bs generalizing current config with
  | nil => rfl
  | cons buffer bs ih =>
      rw [List.foldl_cons, parseBuffer, assignments]
      cases hread : readBuffer buffer with
      | ignored => exact ih current config
      | sectionName name => exact ih name config
      | assignment key value => exact ih current (config.setString current key value)

theorem configNew_eq_after (file : List UInt8) :
    configNew file = after ((fileAssignments file).map Assignment.op) := by
  rw [configNew, configParse, foldl_parseBuffer, after_map_op]
  rfl

/-- A string pair and a section that the parser can take from a buffer. -/
structure Assignment.Clean (a : Assignment) : Prop where
  name : CleanName a.name
  name_length : a.name.length + 2 ≤ lineRoom
  key : CleanKey a.key
  value : CleanValue a.value
  length : a.key.length + 1 + a.value.length ≤ lineRoom

theorem clean_of_mem_assignments {current : Str} {bs : List (List UInt8)}
    (hbs : ∀ b ∈ bs, IsBuffer b) (hcur : CleanName current)
    (hlen : current.length + 2 ≤ lineRoom) {a : Assignment}
    (ha : a ∈ assignments current bs) : a.Clean := by
  induction bs generalizing current with
  | nil => cases ha
  | cons buffer bs ih =>
      have hbuffer := hbs buffer List.mem_cons_self
      have hrest : ∀ b ∈ bs, IsBuffer b := fun b hb => hbs b (List.mem_cons_of_mem _ hb)
      rw [assignments] at ha
      cases hread : readBuffer buffer with
      | ignored =>
          rw [hread] at ha
          exact ih hrest hcur hlen ha
      | sectionName name =>
          rw [hread] at ha
          obtain ⟨hname, hlen'⟩ := hbuffer.clean_section hread
          exact ih hrest hname hlen' ha
      | assignment key value =>
          rw [hread] at ha
          obtain ⟨hkey, hvalue, hfit⟩ := hbuffer.clean_assignment hread
          rcases List.mem_cons.mp ha with rfl | ha
          · exact ⟨hcur, hlen, hkey, hvalue, hfit⟩
          · exact ih hrest hcur hlen ha

theorem clean_of_mem_fileAssignments {file : List UInt8} {a : Assignment}
    (ha : a ∈ fileAssignments file) : a.Clean :=
  clean_of_mem_assignments (fun _ hb => isBuffer_of_mem hb) ⟨by decide, by decide⟩
    (by decide) ha

end Config

end Osi
