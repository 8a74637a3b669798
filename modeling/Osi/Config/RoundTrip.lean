import Osi.Config.Parsing

/-!
# Saving and loading

A saved config is read back line by line: the header of a section selects it,
each entry line assigns its entry, and the blank line between two sections is
ignored. This needs clean strings, and lines that the parser does not cut in a
place that matters: `Fits` says how long a key and a value may be. The
assignments of the saved file are then the entries of the config in their order,
and making them in an empty store builds the config again, provided that names
and keys are distinct and no section is empty.
-/

namespace Osi

open Collection

namespace Config

/-- The line `key = value` comes back as it was written: it is no longer than a
buffer, or only the space behind `key =` is cut off. -/
def Fits (key value : Str) : Prop :=
  key.length + value.length + 3 ≤ lineRoom ∨ value = [] ∧ key.length + 2 ≤ lineRoom

instance (key value : Str) : Decidable (Fits key value) :=
  inferInstanceAs (Decidable (_ ∨ _))

theorem fits_iff {key value : Str} :
    Fits key value ↔
      key.length + value.length ≤ 1020 ∨ value = [] ∧ key.length ≤ 1021 := by
  have hroom : lineRoom = 1023 := rfl
  unfold Fits
  refine or_congr ?_ (and_congr_right fun _ => ?_) <;> omega

/-- The strings of the config are clean, its section names fit on a line, and
its sections have entries. -/
structure Saveable (config : Config) : Prop where
  name : ∀ sec ∈ config.sections, CleanName sec.name
  name_length : ∀ sec ∈ config.sections, sec.name.length + 2 ≤ lineRoom
  nonempty : ∀ sec ∈ config.sections, sec.entries ≠ []
  key : ∀ sec ∈ config.sections, ∀ e ∈ sec.entries, CleanKey e.key
  value : ∀ sec ∈ config.sections, ∀ e ∈ sec.entries, CleanValue e.value

def Fitting (config : Config) : Prop :=
  ∀ sec ∈ config.sections, ∀ e ∈ sec.entries, Fits e.key e.value

/-- Every line of the saved config is read as it was written. -/
structure Legible (config : Config) : Prop where
  name : ∀ sec ∈ config.sections, CleanName sec.name
  name_length : ∀ sec ∈ config.sections, sec.name.length + 2 ≤ lineRoom
  key : ∀ sec ∈ config.sections, ∀ e ∈ sec.entries, CleanKey e.key
  value : ∀ sec ∈ config.sections, ∀ e ∈ sec.entries, CleanValue e.value
  fits : Fitting config

theorem Saveable.legible {config : Config} (h : Saveable config) (hfits : Fitting config) :
    Legible config :=
  ⟨h.name, h.name_length, h.key, h.value, hfits⟩

/-! ## Reading the lines that were written -/

theorem readBuffer_headerLine {name : Str} (h : CleanName name) :
    readBuffer (headerLine name) = .sectionName name := by
  have hnul : (0 : UInt8) ∉ headerLine name := by simp [headerLine, h.nul]
  have htrimmed : Trimmed isSpace (headerLine name) := by
    constructor
    · intro x hx
      obtain rfl : 91 = x := by simpa [headerLine] using hx
      decide
    · intro x hx
      rw [headerLine, List.getLast?_concat] at hx
      obtain rfl := Option.some.inj hx
      decide
  exact readBuffer_section (by rw [text_eq hnul, trim, htrimmed.trim_eq])

theorem readBuffer_entry {key rest : Str} (h : CleanKey key) (hrest : 0 ∉ rest) :
    readBuffer (key ++ 32 :: 61 :: rest) = .assignment key (trim rest) := by
  have hnul : (0 : UInt8) ∉ key ++ 32 :: 61 :: rest := by simp [h.nul, hrest]
  have htext : text (key ++ 32 :: 61 :: rest) =
      (key ++ [32]).dropWhile isSpace ++ 61 :: rest.rdropWhile isSpace := by
    rw [text_eq hnul, List.append_cons key, trim, trim_append_cons (by decide)]
  have hsep : (61 : UInt8) ∉ (key ++ [32]).dropWhile isSpace := by
    intro hx
    have := (List.dropWhile_sublist isSpace).mem hx
    simp [h.separator] at this
  have hplain : Plain (text (key ++ 32 :: 61 :: rest)) := by
    rw [htext]
    cases key with
    | nil =>
        intro x hx
        obtain rfl : 61 = x := by simpa [isSpace] using hx
        decide
    | cons y key =>
        have hy : isSpace y = false := h.trimmed.head y rfl
        rw [List.cons_append, List.dropWhile_cons_of_neg (by simp [hy])]
        intro x hx
        obtain rfl : y = x := by simpa using hx
        exact h.plain y rfl
  rw [readBuffer_assignment htext hsep hplain]
  simp only [trim, trim_dropWhile, trim_rdropWhile, trim_concat (p := isSpace) (x := 32) rfl,
    h.trimmed.trim_eq]

theorem readBuffer_entryLine {entry : Entry} (hkey : CleanKey entry.key)
    (hvalue : CleanValue entry.value) :
    readBuffer (entryLine entry) = .assignment entry.key entry.value := by
  have hnul : (0 : UInt8) ∉ 32 :: entry.value := by simp [hvalue.nul]
  rw [entryLine, readBuffer_entry hkey hnul, trim, trim_cons (by decide),
    hvalue.trimmed.trim_eq]

theorem newline_notMem_headerLine {name : Str} (h : CleanName name) :
    10 ∉ headerLine name := by
  simp [headerLine, h.newline]

theorem newline_notMem_entryLine {entry : Entry} (hkey : CleanKey entry.key)
    (hvalue : CleanValue entry.value) : 10 ∉ entryLine entry := by
  simp [entryLine, hkey.newline, hvalue.newline]

theorem length_entryLine (entry : Entry) :
    (entryLine entry).length = entry.key.length + entry.value.length + 3 := by
  simp only [entryLine, List.length_append, List.length_cons]
  omega

/-- A line that is no longer than a buffer is read as a whole. When it fills the
buffer, its newline is a blank line of its own. -/
theorem assignments_line (current : Str) {l : List UInt8} (hl : 10 ∉ l)
    (hlen : l.length ≤ lineRoom) (rest : List UInt8) :
    assignments current (buffers (l ++ 10 :: rest)) =
      assignments current (l :: buffers rest) := by
  rcases hlen.lt_or_eq with hlt | heq
  · rw [buffers_line hl hlt, assignments, assignments, readBuffer_newline]
  · have hblank : readBuffer [10] = .ignored := by decide
    have htwo : l.length < 2 * lineRoom := by
      have : 0 < lineRoom := by decide
      omega
    rw [buffers_long_line hl heq.ge htwo, List.take_of_length_le hlen,
      List.drop_eq_nil_of_le hlen, List.nil_append]
    rw [assignments, assignments]
    simp only [assignments, hblank]

theorem assignments_entryLine (current : Str) {entry : Entry} (hkey : CleanKey entry.key)
    (hvalue : CleanValue entry.value) (hfits : Fits entry.key entry.value)
    (rest : List UInt8) :
    assignments current (buffers (entryLine entry ++ 10 :: rest)) =
      ⟨current, entry.key, entry.value⟩ :: assignments current (buffers rest) := by
  have hl := newline_notMem_entryLine hkey hvalue
  have hlen := length_entryLine entry
  by_cases hle : (entryLine entry).length ≤ lineRoom
  · rw [assignments_line current hl hle, assignments, readBuffer_entryLine hkey hvalue]
  · -- only the space behind `key =` is in the second buffer
    have hroom : lineRoom = 1023 := rfl
    obtain ⟨hempty, hkeylen⟩ : entry.value = [] ∧ entry.key.length + 2 ≤ lineRoom := by
      rcases hfits with hfits | hfits
      · omega
      · exact hfits
    have hshape : entryLine entry = (entry.key ++ [32, 61]) ++ [32] := by
      simp [entryLine, hempty]
    have hfirst : (entry.key ++ [32, 61]).length = lineRoom := by
      rw [hempty] at hlen
      simp only [List.length_append, List.length_cons, List.length_nil] at hlen ⊢
      omega
    have hread : readBuffer (entry.key ++ [32, 61]) = .assignment entry.key entry.value := by
      rw [hempty]
      exact readBuffer_entry hkey (by simp)
    have hblank : readBuffer [32, 10] = .ignored := by decide
    rw [buffers_long_line hl (by omega) (by rw [hlen, hempty]; simp; omega), hshape,
      ← hfirst, List.take_left, List.drop_left]
    simp only [assignments, hread, List.singleton_append, hblank]

/-! ## The assignments of a saved file -/

def sectionContents (sec : Section) : List Assignment :=
  sec.entries.map fun e => ⟨sec.name, e.key, e.value⟩

def contents (config : Config) : List Assignment :=
  config.sections.flatMap sectionContents

theorem assignments_entries (name : Str) {entries : List Entry}
    (hkey : ∀ e ∈ entries, CleanKey e.key) (hvalue : ∀ e ∈ entries, CleanValue e.value)
    (hfits : ∀ e ∈ entries, Fits e.key e.value) (rest : List UInt8) :
    assignments name (buffers ((entries.flatMap fun e => entryLine e ++ [10]) ++ rest)) =
      (entries.map fun e => ⟨name, e.key, e.value⟩) ++ assignments name (buffers rest) := by
  induction entries with
  | nil => rfl
  | cons e entries ih =>
      have htext : ((e :: entries).flatMap fun e => entryLine e ++ [10]) ++ rest =
          entryLine e ++ 10 :: ((entries.flatMap fun e => entryLine e ++ [10]) ++ rest) := by
        simp
      have hmem : e ∈ e :: entries := List.mem_cons_self
      rw [htext, assignments_entryLine name (hkey e hmem) (hvalue e hmem) (hfits e hmem),
        ih (fun e he => hkey e (List.mem_cons_of_mem _ he))
          (fun e he => hvalue e (List.mem_cons_of_mem _ he))
          (fun e he => hfits e (List.mem_cons_of_mem _ he))]
      rfl

theorem assignments_sectionText (current : Str) {sec : Section} (hname : CleanName sec.name)
    (hlen : sec.name.length + 2 ≤ lineRoom) (hkey : ∀ e ∈ sec.entries, CleanKey e.key)
    (hvalue : ∀ e ∈ sec.entries, CleanValue e.value)
    (hfits : ∀ e ∈ sec.entries, Fits e.key e.value) (rest : List UInt8) :
    assignments current (buffers (sectionText sec ++ rest)) =
      sectionContents sec ++ assignments sec.name (buffers rest) := by
  have hheader : (headerLine sec.name).length ≤ lineRoom := by
    rw [length_headerLine]
    exact hlen
  rw [sectionText, List.append_assoc, List.cons_append,
    assignments_line current (newline_notMem_headerLine hname) hheader, assignments,
    readBuffer_headerLine hname]
  exact assignments_entries sec.name hkey hvalue hfits rest

/-- The saved file makes the entries of the config, one assignment each. -/
theorem fileAssignments_save {config : Config} (h : Legible config) :
    fileAssignments (save config) = contents config := by
  have hsections : ∀ (current : Str) (sections : List Section),
      (∀ sec ∈ sections, sec ∈ config.sections) →
      assignments current (buffers (sectionsText sections)) =
        sections.flatMap sectionContents := by
    intro current sections hsub
    induction sections generalizing current with
    | nil => rfl
    | cons sec sections ih =>
        have hsec := hsub sec List.mem_cons_self
        have hrest : ∀ sec ∈ sections, sec ∈ config.sections :=
          fun sec hs => hsub sec (List.mem_cons_of_mem _ hs)
        have htext := assignments_sectionText current (h.name sec hsec)
          (h.name_length sec hsec) (h.key sec hsec) (h.value sec hsec) (h.fits sec hsec)
        cases sections with
        | nil =>
            have hlast := htext []
            rw [List.append_nil] at hlast
            rw [sectionsText, hlast]
            rfl
        | cons sec' sections =>
            have hblank : readBuffer [] = .ignored := by decide
            rw [sectionsText, htext, ← List.nil_append (10 :: _),
              assignments_line sec.name (by simp) (Nat.zero_le _), assignments, hblank,
              List.flatMap_cons]
            exact congrArg _ (ih sec.name hrest)
  exact hsections defaultSection config.sections fun _ hs => hs

/-! ## Rebuilding a config from its entries -/

theorem setString_of_new {config : Config} {name : Str}
    (h : config.sectionFind name = none) (key value : Str) :
    (config.setString name key value).sections =
      config.sections ++ [{ name := name, entries := [{ key := key, value := value }] }] := by
  unfold setString
  rw [h]
  exact modifyFirst_concat h (by simp [sectionNew])

theorem setString_of_last {sections : List Section} {name key : Str}
    {entries : List Entry} (hname : name ∉ sections.map Section.name)
    (hkey : key ∉ entries.map Entry.key) (value : Str) :
    setString { sections := sections ++ [{ name := name, entries := entries }] }
        name key value =
      { sections := sections ++
          [{ name := name, entries := entries ++ [{ key := key, value := value }] }] } := by
  have hfind : lookup Section.name streq name sections = none :=
    lookup_streq_eq_none_iff.mpr hname
  have hlast : sectionFind
      { sections := sections ++ [{ name := name, entries := entries }] } name =
      some { name := name, entries := entries } := by
    simp [sectionFind, lookup_concat, hfind]
  have hentry : lookup Entry.key streq key entries = none :=
    lookup_streq_eq_none_iff.mpr hkey
  have hgrow := modifyFirst_concat (f := Section.mapEntries (setEntry key value))
    (x := { name := name, entries := entries }) hfind (by simp)
  simp only [setString, hlast, hgrow, Section.mapEntries, setEntry, hentry]

/-- The assignments of a section behind sections of other names. -/
theorem foldl_sectionContents {sections : List Section} {sec : Section}
    (hname : sec.name ∉ sections.map Section.name) (hne : sec.entries ≠ [])
    (hkeys : (sec.entries.map Entry.key).Nodup) :
    (sectionContents sec).foldl assign { sections := sections } =
      { sections := sections ++ [sec] } := by
  have hgrow : ∀ (done entries : List Entry),
      ((done ++ entries).map Entry.key).Nodup →
      (entries.map fun e => (⟨sec.name, e.key, e.value⟩ : Assignment)).foldl assign
          { sections := sections ++ [{ name := sec.name, entries := done }] } =
        { sections := sections ++ [{ name := sec.name, entries := done ++ entries }] } := by
    intro done entries hnodup
    induction entries generalizing done with
    | nil => simp
    | cons e entries ih =>
        have hkey : e.key ∉ done.map Entry.key := by
          intro hmem
          rw [List.map_append, List.nodup_append] at hnodup
          exact hnodup.2.2 _ hmem _ (by simp) rfl
        rw [List.map_cons, List.foldl_cons, assign, setString_of_last hname hkey,
          ih (done ++ [e]) (by simpa using hnodup)]
        simp
  obtain ⟨e, entries, hentries⟩ := List.exists_cons_of_ne_nil hne
  have hnew : sectionFind { sections := sections } sec.name = none :=
    lookup_streq_eq_none_iff.mpr hname
  have hfirst : setString { sections := sections } sec.name e.key e.value =
      { sections := sections ++ [{ name := sec.name, entries := [e] }] } :=
    congrArg Config.mk (setString_of_new hnew e.key e.value)
  rw [sectionContents, hentries, List.map_cons, List.foldl_cons, assign, hfirst,
    hgrow [e] entries (by simpa [hentries] using hkeys), List.singleton_append, ← hentries]

theorem Wellformed.sectionFind_of_mem {config : Config} (h : Wellformed config)
    {sec : Section} (hsec : sec ∈ config.sections) :
    config.sectionFind sec.name = some sec :=
  (lookup_eq_some_iff equality_streq h.distinct_sections).mpr ⟨hsec, by simp⟩

theorem after_contents {config : Config} (h : Wellformed config)
    (hne : ∀ sec ∈ config.sections, sec.entries ≠ []) :
    after ((contents config).map Assignment.op) = config := by
  have hgrow : ∀ done sections : List Section,
      ((done ++ sections).map Section.name).Nodup →
      (∀ sec ∈ sections, sec ∈ config.sections) →
      (sections.flatMap sectionContents).foldl assign { sections := done } =
        { sections := done ++ sections } := by
    intro done sections hnodup hsub
    induction sections generalizing done with
    | nil => simp
    | cons sec sections ih =>
        have hsec := hsub sec List.mem_cons_self
        have hname : sec.name ∉ done.map Section.name := by
          intro hmem
          rw [List.map_append, List.nodup_append] at hnodup
          exact hnodup.2.2 _ hmem _ (by simp) rfl
        have hkeys : (sec.entries.map Entry.key).Nodup := by
          have := h.keys sec.name
          rwa [Config.keys, h.sectionFind_of_mem hsec] at this
        rw [List.flatMap_cons, List.foldl_append,
          foldl_sectionContents hname (hne sec hsec) hkeys,
          ih (done ++ [sec]) (by simpa using hnodup)
            (fun sec hs => hsub sec (List.mem_cons_of_mem _ hs))]
        simp
  rw [after_map_op]
  exact hgrow [] config.sections h.names fun _ hs => hs

/-- A config that can be saved, and whose lines fit, is loaded as it was. -/
theorem configNew_save {config : Config} (hwf : Wellformed config)
    (hsave : Saveable config) (hfits : Fitting config) :
    configNew (save config) = config := by
  rw [configNew_eq_after, fileAssignments_save (hsave.legible hfits),
    after_contents hwf hsave.nonempty]

/-- A config that calls on an empty one reach, with strings that the format can
hold and lines shorter than the buffer of the parser, is loaded as it was
saved. -/
theorem config_save_load_round_trip (ops : List Op)
    (hname : ∀ sec ∈ (after ops).sections, CleanName sec.name)
    (hne : ∀ sec ∈ (after ops).sections, sec.entries ≠ [])
    (hkey : ∀ sec ∈ (after ops).sections, ∀ e ∈ sec.entries, CleanKey e.key)
    (hvalue : ∀ sec ∈ (after ops).sections, ∀ e ∈ sec.entries, CleanValue e.value)
    (hheader : ∀ sec ∈ (after ops).sections, (headerLine sec.name).length ≤ 1022)
    (hentry : ∀ sec ∈ (after ops).sections, ∀ e ∈ sec.entries,
      (entryLine e).length ≤ 1022) :
    configParse newEmpty (save (after ops)) = after ops := by
  have hroom : lineRoom = 1023 := rfl
  refine configNew_save (wellformed_after ops) ⟨hname, ?_, hne, hkey, hvalue⟩ ?_
  · intro sec hsec
    have hlen := hheader sec hsec
    rw [length_headerLine] at hlen
    omega
  · intro sec hsec e he
    have hlen := hentry sec hsec e he
    rw [length_entryLine] at hlen
    exact Or.inl (by omega)

/-- Two sections, one with a bracket and spaces in its name, an empty key, an
empty value, and a value that looks like a section, a comment and an entry. -/
def awkwardOps : List Op :=
  [.setString [32, 97, 93, 32] [] [98], .setString [99] [100] [91, 35, 61, 93],
    .setString [32, 97, 93, 32] [101] []]

theorem config_save_load_round_trip_awkward :
    configParse newEmpty (save (after awkwardOps)) = after awkwardOps :=
  config_save_load_round_trip awkwardOps (by decide) (by decide) (by decide) (by decide)
    (by decide) (by decide)

end Config

end Osi
