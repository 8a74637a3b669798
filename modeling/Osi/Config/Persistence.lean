import Osi.Config.RoundTrip

/-!
# Which loaded configs can be saved and loaded again

A loaded config is clean, and a key and its value were in one buffer, with the
separator between them. The line that `config_save` writes for them is two bytes
longer than `key=value`, so it may be cut: a line of `1024` or `1025` bytes leaves
one or two bytes to the next buffer. What the parser makes of the pieces always
fits (`fits_of_mem_buffers_save`), so an entry that does not fit is not in the
config that is loaded.
-/

namespace Osi

open Collection

namespace Config

/-! ## The entries of a config -/

theorem mem_setEntry {key value : Str} {entries : List Entry} {e : Entry}
    (h : e ∈ setEntry key value entries) : e ∈ entries ∨ e.key = key ∧ e.value = value := by
  unfold setEntry at h
  split at h
  · rcases mem_modifyFirst h with h | ⟨e', _, hkey, rfl⟩
    · exact Or.inl h
    · exact Or.inr ⟨by simpa using hkey, rfl⟩
  · rcases List.mem_append.mp h with h | h
    · exact Or.inl h
    · obtain rfl := List.mem_singleton.mp h
      exact Or.inr ⟨rfl, rfl⟩

theorem setEntry_ne_nil (key value : Str) (entries : List Entry) :
    setEntry key value entries ≠ [] := by
  intro hnil
  have hread := lookup_setEntry key key value entries
  rw [hnil, if_pos rfl] at hread
  cases hread

/-- A section after a set is an old one, or the one of the set, with its old
entries and the new one. -/
theorem mem_setString {config : Config} {name key value : Str} {sec : Section}
    (h : sec ∈ (config.setString name key value).sections) :
    sec ∈ config.sections ∨
      sec.name = name ∧ sec.entries ≠ [] ∧ ∀ e ∈ sec.entries,
        (∃ sec' ∈ config.sections, e ∈ sec'.entries) ∨ e.key = key ∧ e.value = value := by
  cases hfind : config.sectionFind name with
  | none =>
      rw [setString_of_new hfind] at h
      rcases List.mem_append.mp h with h | h
      · exact Or.inl h
      · obtain rfl := List.mem_singleton.mp h
        refine Or.inr ⟨rfl, by simp, ?_⟩
        intro e he
        obtain rfl := List.mem_singleton.mp he
        exact Or.inr ⟨rfl, rfl⟩
  | some found =>
      unfold setString at h
      rw [hfind] at h
      rcases mem_modifyFirst h with h | ⟨sec', hsec', hname, rfl⟩
      · exact Or.inl h
      · refine Or.inr ⟨by simpa using hname, setEntry_ne_nil _ _ _, ?_⟩
        intro e he
        rcases mem_setEntry he with he | he
        · exact Or.inl ⟨sec', hsec', he⟩
        · exact Or.inr he

theorem Wellformed.read_eq_some_iff {config : Config} (h : Wellformed config)
    {name key v : Str} :
    config.read name key = some v ↔
      ∃ sec ∈ config.sections, sec.name = name ∧ ⟨key, v⟩ ∈ sec.entries := by
  rw [read, entryFind_eq]
  constructor
  · intro hread
    obtain ⟨e, he, rfl⟩ := Option.map_eq_some_iff.mp hread
    obtain ⟨sec, hsec, hentry⟩ := Option.bind_eq_some_iff.mp he
    obtain ⟨hmem, hname⟩ :=
      (lookup_eq_some_iff equality_streq h.distinct_sections).mp hsec
    obtain ⟨hmem', hkey⟩ :=
      (lookup_eq_some_iff equality_streq (h.distinct_entries hsec)).mp hentry
    rw [streq_iff] at hname hkey
    subst hkey
    exact ⟨sec, hmem, hname, hmem'⟩
  · rintro ⟨sec, hsec, rfl, hmem⟩
    have hfind := h.sectionFind_of_mem hsec
    have hentry : lookup Entry.key streq key sec.entries = some ⟨key, v⟩ :=
      (lookup_eq_some_iff equality_streq (h.distinct_entries hfind)).mpr ⟨hmem, by simp⟩
    rw [hfind, Option.bind_some, hentry]
    rfl

theorem Saveable.setString {config : Config} (h : Saveable config) {name key value : Str}
    (hname : CleanName name) (hlen : name.length + 2 ≤ lineRoom) (hkey : CleanKey key)
    (hvalue : CleanValue value) : Saveable (config.setString name key value) := by
  refine ⟨?_, ?_, ?_, ?_, ?_⟩
  · intro sec hsec
    rcases mem_setString hsec with hsec | ⟨rfl, -, -⟩
    · exact h.name sec hsec
    · exact hname
  · intro sec hsec
    rcases mem_setString hsec with hsec | ⟨rfl, -, -⟩
    · exact h.name_length sec hsec
    · exact hlen
  · intro sec hsec
    rcases mem_setString hsec with hsec | ⟨-, hne, -⟩
    · exact h.nonempty sec hsec
    · exact hne
  · intro sec hsec e he
    rcases mem_setString hsec with hsec | ⟨-, -, hentries⟩
    · exact h.key sec hsec e he
    · rcases hentries e he with ⟨sec', hsec', he'⟩ | ⟨rfl, rfl⟩
      · exact h.key sec' hsec' e he'
      · exact hkey
  · intro sec hsec e he
    rcases mem_setString hsec with hsec | ⟨-, -, hentries⟩
    · exact h.value sec hsec e he
    · rcases hentries e he with ⟨sec', hsec', he'⟩ | ⟨rfl, rfl⟩
      · exact h.value sec' hsec' e he'
      · exact hvalue

def Bounded (config : Config) : Prop :=
  ∀ sec ∈ config.sections, ∀ e ∈ sec.entries,
    e.key.length + 1 + e.value.length ≤ lineRoom

theorem forall_entries_setString {config : Config} {R : Str → Str → Prop}
    (h : ∀ sec ∈ config.sections, ∀ e ∈ sec.entries, R e.key e.value)
    {name key value : Str} (hnew : R key value) :
    ∀ sec ∈ (config.setString name key value).sections, ∀ e ∈ sec.entries,
      R e.key e.value := by
  intro sec hsec e he
  rcases mem_setString hsec with hsec | ⟨-, -, hentries⟩
  · exact h sec hsec e he
  · rcases hentries e he with ⟨sec', hsec', he'⟩ | ⟨rfl, rfl⟩
    · exact h sec' hsec' e he'
    · exact hnew

/-! ## Loaded configs -/

theorem wellformed_configNew (file : List UInt8) : Wellformed (configNew file) := by
  rw [configNew_eq_after]
  exact wellformed_after _

theorem saveable_configNew (file : List UInt8) :
    Saveable (configNew file) ∧ Bounded (configNew file) := by
  have hgrow : ∀ (l : List Assignment) (config : Config),
      (∀ a ∈ l, a.Clean) → Saveable config → Bounded config →
      Saveable (l.foldl assign config) ∧ Bounded (l.foldl assign config) := by
    intro l
    induction l with
    | nil => exact fun _ _ hsave hbound => ⟨hsave, hbound⟩
    | cons a l ih =>
        intro config hclean hsave hbound
        have ha := hclean a List.mem_cons_self
        exact ih _ (fun b hb => hclean b (List.mem_cons_of_mem _ hb))
          (hsave.setString ha.name ha.name_length ha.key ha.value)
          (forall_entries_setString (R := fun k v => k.length + 1 + v.length ≤ lineRoom)
            hbound ha.length)
  rw [configNew_eq_after, after_map_op]
  refine hgrow _ _ (fun a ha => clean_of_mem_fileAssignments ha) ?_ ?_
  · refine ⟨?_, ?_, ?_, ?_, ?_⟩ <;> exact fun sec hsec => absurd hsec List.not_mem_nil
  · exact fun sec hsec => absurd hsec List.not_mem_nil

/-- What a loaded config reads was assigned last to the pair. -/
theorem read_configNew (file : List UInt8) (name key v : Str) :
    (configNew file).read name key = some v ↔
      ∃ n, IsLast (fun a : Assignment => a.name = name ∧ a.key = key)
        (fileAssignments file) n ⟨name, key, v⟩ := by
  rw [configNew_eq_after, read_after]
  constructor
  · rintro ⟨n, op, hlast, hv⟩
    obtain ⟨a, ha, rfl⟩ := IsLast.map_iff.mp hlast
    obtain ⟨hname, hkey⟩ := ha.2.1
    obtain rfl : a.value = v := by simpa [Assignment.op, Op.value] using hv
    refine ⟨n, ?_⟩
    obtain ⟨name', key', value'⟩ := a
    obtain rfl : name' = name := hname
    obtain rfl : key' = key := hkey
    exact ha
  · rintro ⟨n, hlast⟩
    exact ⟨n, _, IsLast.map_iff.mpr ⟨_, hlast, rfl⟩, rfl⟩

theorem exists_buffer_of_mem_assignments {current : Str} {bs : List (List UInt8)}
    {a : Assignment} (ha : a ∈ assignments current bs) :
    ∃ buffer ∈ bs, readBuffer buffer = .assignment a.key a.value := by
  induction bs generalizing current with
  | nil => cases ha
  | cons buffer bs ih =>
      have hrest : ∀ current, a ∈ assignments current bs →
          ∃ b ∈ buffer :: bs, readBuffer b = .assignment a.key a.value := by
        intro current ha
        obtain ⟨b, hb, hread⟩ := ih ha
        exact ⟨b, List.mem_cons_of_mem _ hb, hread⟩
      rw [assignments] at ha
      cases hread : readBuffer buffer with
      | ignored =>
          rw [hread] at ha
          exact hrest _ ha
      | sectionName name =>
          rw [hread] at ha
          exact hrest _ ha
      | assignment key value =>
          rw [hread] at ha
          rcases List.mem_cons.mp ha with rfl | ha
          · exact ⟨buffer, List.mem_cons_self, hread⟩
          · exact hrest _ ha

theorem exists_buffer_of_read {file : List UInt8} {name key v : Str}
    (h : (configNew file).read name key = some v) :
    ∃ buffer ∈ buffers file, readBuffer buffer = .assignment key v := by
  obtain ⟨n, hlast⟩ := (read_configNew file name key v).mp h
  exact exists_buffer_of_mem_assignments (List.mem_of_getElem? hlast.get)

/-! ## The pieces of a saved config -/

def BufferFits (buffer : List UInt8) : Prop :=
  ∀ key value, readBuffer buffer = .assignment key value → Fits key value

def FileFits (file : List UInt8) : Prop := ∀ buffer ∈ buffers file, BufferFits buffer

theorem bufferFits_of_ne {buffer : List UInt8}
    (h : ∀ key value, readBuffer buffer ≠ .assignment key value) : BufferFits buffer :=
  fun key value hread => absurd hread (h key value)

/-- A buffer with two bytes to spare holds nothing that is too long. -/
theorem bufferFits_of_length_le {buffer : List UInt8} (h : buffer.length + 2 ≤ lineRoom) :
    BufferFits buffer := by
  intro key value hread
  obtain hig | ⟨name, -, hsec⟩ | ⟨a, b, htext, -, -, hassign⟩ := readBuffer_cases buffer
  · rw [hig] at hread
    cases hread
  · rw [hsec] at hread
    cases hread
  · rw [hassign] at hread
    obtain ⟨rfl, rfl⟩ := Line.assignment.inj hread
    have hlen := length_text_le buffer
    have hkey : (trim a).length ≤ a.length := length_trim_le
    have hvalue : (trim b).length ≤ b.length := length_trim_le
    rw [htext, List.length_append, List.length_cons] at hlen
    exact Or.inl (by omega)

theorem bufferFits_of_notMem {buffer : List UInt8} (h : 61 ∉ buffer) :
    BufferFits buffer := by
  refine bufferFits_of_ne fun key value hread => ?_
  obtain hig | ⟨name, -, hsec⟩ | ⟨a, b, htext, -⟩ := readBuffer_cases buffer
  · rw [hig] at hread
    cases hread
  · rw [hsec] at hread
    cases hread
  · have hmem : (61 : UInt8) ∈ text buffer := by simp [htext]
    exact h (mem_of_mem_cString (mem_of_mem_trim hmem))

theorem FileFits.line {l rest : List UInt8} (hrest : FileFits rest) (hl : 10 ∉ l)
    (hlen : l.length < 2 * lineRoom)
    (hone : l.length < lineRoom → BufferFits (l ++ [10]))
    (htwo : lineRoom ≤ l.length →
      BufferFits (l.take lineRoom) ∧ BufferFits (l.drop lineRoom ++ [10])) :
    FileFits (l ++ 10 :: rest) := by
  intro buffer hb
  by_cases hlt : l.length < lineRoom
  · rw [buffers_line hl hlt] at hb
    rcases List.mem_cons.mp hb with rfl | hb
    · exact hone hlt
    · exact hrest buffer hb
  · obtain ⟨hfirst, hsecond⟩ := htwo (by omega)
    rw [buffers_long_line hl (by omega) hlen] at hb
    rcases List.mem_cons.mp hb with rfl | hb
    · exact hfirst
    · rcases List.mem_cons.mp hb with rfl | hb
      · exact hsecond
      · exact hrest buffer hb

theorem FileFits.headerLine {rest : List UInt8} (hrest : FileFits rest) {name : Str}
    (hname : CleanName name) (hlen : name.length + 2 ≤ lineRoom) :
    FileFits (headerLine name ++ 10 :: rest) := by
  have hroom : lineRoom = 1023 := rfl
  have hle : (Config.headerLine name).length ≤ lineRoom := by
    rw [length_headerLine]
    exact hlen
  have hread := readBuffer_headerLine hname
  refine hrest.line (newline_notMem_headerLine hname) (by omega) ?_ ?_
  · intro _
    refine bufferFits_of_ne fun key value => ?_
    rw [readBuffer_newline, hread]
    exact Line.noConfusion
  · intro _
    rw [List.take_of_length_le hle, List.drop_eq_nil_of_le hle]
    refine ⟨bufferFits_of_ne fun key value => ?_, bufferFits_of_length_le (by decide)⟩
    rw [hread]
    exact Line.noConfusion

/-- The first buffer of a line that is too long ends in the value, behind the
`=`, or before it; in each case what it assigns fits. -/
theorem bufferFits_take_entryLine {entry : Entry} (hkey : CleanKey entry.key)
    (hvalue : CleanValue entry.value) (hlong : lineRoom ≤ (entryLine entry).length)
    (hlen : entry.key.length + 1 ≤ lineRoom) :
    BufferFits ((entryLine entry).take lineRoom) := by
  have hroom : lineRoom = 1023 := rfl
  rw [length_entryLine] at hlong
  have htake : (entryLine entry).take lineRoom =
      entry.key ++ (32 :: 61 :: 32 :: entry.value).take (lineRoom - entry.key.length) := by
    rw [entryLine, List.take_append, List.take_of_length_le (by omega)]
  rw [htake]
  obtain hshort | hshort | hshort : entry.key.length + 3 ≤ lineRoom ∨
      entry.key.length + 2 = lineRoom ∨ entry.key.length + 1 = lineRoom := by omega
  · obtain ⟨n, hn⟩ : ∃ n, lineRoom - entry.key.length = n + 3 :=
      ⟨lineRoom - entry.key.length - 3, by omega⟩
    have hnul : (0 : UInt8) ∉ 32 :: entry.value.take n := by
      intro hmem
      rcases List.mem_cons.mp hmem with h | h
      · cases h
      · exact hvalue.nul (List.mem_of_mem_take h)
    intro key value hread
    rw [hn] at hread
    simp only [List.take_succ_cons] at hread
    rw [readBuffer_entry hkey hnul] at hread
    obtain ⟨rfl, rfl⟩ := Line.assignment.inj hread
    have htrim : (trim (32 :: entry.value.take n)).length ≤ (entry.value.take n).length := by
      rw [trim, trim_cons (by decide)]
      exact length_trim_le
    rw [List.length_take] at htrim
    exact Or.inl (by omega)
  · have htwo : lineRoom - entry.key.length = 2 := by omega
    intro key value hread
    rw [htwo, List.take_succ_cons, List.take_succ_cons, List.take_zero,
      readBuffer_entry hkey (by simp)] at hread
    obtain ⟨rfl, rfl⟩ := Line.assignment.inj hread
    exact Or.inr ⟨rfl, hshort.le⟩
  · have hone : lineRoom - entry.key.length = 1 := by omega
    rw [hone, List.take_succ_cons, List.take_zero]
    exact bufferFits_of_notMem (by simp [hkey.separator])

theorem FileFits.entryLine {rest : List UInt8} (hrest : FileFits rest) {entry : Entry}
    (hkey : CleanKey entry.key) (hvalue : CleanValue entry.value)
    (hlen : entry.key.length + 1 + entry.value.length ≤ lineRoom) :
    FileFits (entryLine entry ++ 10 :: rest) := by
  have hroom : lineRoom = 1023 := rfl
  have hline := length_entryLine entry
  refine hrest.line (newline_notMem_entryLine hkey hvalue) (by omega) ?_ ?_
  · intro hlt key value hread
    rw [readBuffer_newline, readBuffer_entryLine hkey hvalue] at hread
    obtain ⟨rfl, rfl⟩ := Line.assignment.inj hread
    exact Or.inl (by omega)
  · intro hlong
    refine ⟨bufferFits_take_entryLine hkey hvalue hlong (by omega), ?_⟩
    apply bufferFits_of_length_le
    rw [List.length_append, List.length_drop, List.length_singleton]
    omega

theorem FileFits.sectionText {rest : List UInt8} (hrest : FileFits rest) {sec : Section}
    (hname : CleanName sec.name) (hlen : sec.name.length + 2 ≤ lineRoom)
    (hkey : ∀ e ∈ sec.entries, CleanKey e.key)
    (hvalue : ∀ e ∈ sec.entries, CleanValue e.value)
    (hbound : ∀ e ∈ sec.entries, e.key.length + 1 + e.value.length ≤ lineRoom) :
    FileFits (sectionText sec ++ rest) := by
  have hentries : ∀ entries : List Entry, (∀ e ∈ entries, e ∈ sec.entries) →
      FileFits ((entries.flatMap fun e => Config.entryLine e ++ [10]) ++ rest) := by
    intro entries hsub
    induction entries with
    | nil => exact hrest
    | cons e entries ih =>
        have he := hsub e List.mem_cons_self
        have hnext := (ih fun e he => hsub e (List.mem_cons_of_mem _ he)).entryLine
          (hkey e he) (hvalue e he) (hbound e he)
        simpa using hnext
  have hheader := (hentries sec.entries fun _ he => he).headerLine hname hlen
  rw [Config.sectionText, List.append_assoc, List.cons_append]
  exact hheader

/-- Whatever a saved config makes the parser assign fits, also where it differs
from what was saved. -/
theorem fileFits_save {config : Config} (h : Saveable config) (hbound : Bounded config) :
    FileFits (save config) := by
  have hsections : ∀ sections : List Section, (∀ sec ∈ sections, sec ∈ config.sections) →
      FileFits (sectionsText sections) := by
    intro sections hsub
    induction sections with
    | nil => exact fun buffer hb => absurd hb List.not_mem_nil
    | cons sec sections ih =>
        have hsec := hsub sec List.mem_cons_self
        have hnext := ih fun sec hs => hsub sec (List.mem_cons_of_mem _ hs)
        have htext : ∀ rest, FileFits rest → FileFits (sectionText sec ++ rest) :=
          fun rest hrest => hrest.sectionText (h.name sec hsec) (h.name_length sec hsec)
            (h.key sec hsec) (h.value sec hsec) (hbound sec hsec)
        cases sections with
        | nil =>
            have hlast := htext [] fun buffer hb => absurd hb List.not_mem_nil
            rwa [List.append_nil] at hlast
        | cons sec' sections =>
            refine htext _ ?_
            have hblank := hnext.line (l := []) List.not_mem_nil (by decide)
              (fun _ => bufferFits_of_length_le (by decide))
              (fun hle => absurd hle (by decide))
            exact hblank
  exact hsections config.sections fun _ hs => hs

/-- A config that is loaded as it was saved has entries that fit. -/
theorem fitting_of_configNew_save {config : Config} (hwf : Wellformed config)
    (hsave : Saveable config) (hbound : Bounded config)
    (h : configNew (save config) = config) : Fitting config := by
  intro sec hsec e he
  have hread : config.read sec.name e.key = some e.value :=
    hwf.read_eq_some_iff.mpr ⟨sec, hsec, rfl, he⟩
  rw [← h] at hread
  obtain ⟨buffer, hb, hassign⟩ := exists_buffer_of_read hread
  exact fileFits_save hsave hbound buffer hb _ _ hassign

/-- Loading what was saved of a loaded config gives it back exactly when, of the
assignments its file makes, each one that no later one overwrites fits. -/
theorem load_save_load_iff (file : List UInt8) :
    configNew (save (configNew file)) = configNew file ↔
      ∀ n name key value,
        IsLast (fun a : Assignment => a.name = name ∧ a.key = key) (fileAssignments file) n
          ⟨name, key, value⟩ →
        key.length + value.length ≤ 1020 ∨ value = [] ∧ key.length ≤ 1021 := by
  have hwf := wellformed_configNew file
  obtain ⟨hsave, hbound⟩ := saveable_configNew file
  have hfitting : Fitting (configNew file) ↔
      ∀ n name key value,
        IsLast (fun a : Assignment => a.name = name ∧ a.key = key) (fileAssignments file) n
          ⟨name, key, value⟩ →
        key.length + value.length ≤ 1020 ∨ value = [] ∧ key.length ≤ 1021 := by
    constructor
    · intro hfits n name key value hlast
      obtain ⟨sec, hsec, -, he⟩ :=
        hwf.read_eq_some_iff.mp ((read_configNew file name key value).mpr ⟨n, hlast⟩)
      exact fits_iff.mp (hfits sec hsec ⟨key, value⟩ he)
    · intro hall sec hsec e he
      obtain ⟨n, hlast⟩ := (read_configNew file sec.name e.key e.value).mp
        (hwf.read_eq_some_iff.mpr ⟨sec, hsec, rfl, he⟩)
      exact fits_iff.mpr (hall n sec.name e.key e.value hlast)
  rw [← hfitting]
  exact ⟨fitting_of_configNew_save hwf hsave hbound, configNew_save hwf hsave⟩

def longValue : Str := List.replicate 1020 118

theorem length_longValue : longValue.length = 1020 := List.length_replicate

/-- The file `k=vv...v`, whose only line has `1022` bytes. -/
def longLine : List UInt8 := 107 :: 61 :: longValue ++ [10]

theorem fileAssignments_longLine :
    fileAssignments longLine = [⟨defaultSection, [107], longValue⟩] := by
  have hmem : ∀ b ∈ 107 :: 61 :: longValue, b = 107 ∨ b = 61 ∨ b = 118 := by
    intro b hb
    rcases List.mem_cons.mp hb with rfl | hb
    · exact Or.inl rfl
    · rcases List.mem_cons.mp hb with rfl | hb
      · exact Or.inr (Or.inl rfl)
      · exact Or.inr (Or.inr (List.eq_of_mem_replicate hb))
  have hspace : ∀ b ∈ 107 :: 61 :: longValue, isSpace b = false := by
    intro b hb
    rcases hmem b hb with rfl | rfl | rfl <;> decide
  have hvalue : Trimmed isSpace longValue := trimmed_of_forall fun b hb =>
    hspace b (List.mem_cons_of_mem _ (List.mem_cons_of_mem _ hb))
  have hnul : (0 : UInt8) ∉ 107 :: 61 :: longValue := by
    intro h
    exact absurd (hmem 0 h) (by decide)
  have hnewline : (10 : UInt8) ∉ 107 :: 61 :: longValue := by
    intro h
    exact absurd (hmem 10 h) (by decide)
  have htext : text (107 :: 61 :: longValue) = [107] ++ 61 :: longValue := by
    rw [text_eq hnul, trim, (trimmed_of_forall hspace).trim_eq]
    rfl
  have hplain : Plain (text (107 :: 61 :: longValue)) := by
    rw [htext]
    intro x hx
    obtain rfl := Option.some.inj hx
    decide
  have hlen : (107 :: 61 :: longValue).length ≤ lineRoom := by
    rw [List.length_cons, List.length_cons, length_longValue]
    decide
  have hread := readBuffer_assignment htext (by decide) hplain
  have hkey : trim [107] = [107] := by decide
  rw [fileAssignments, longLine, assignments_line defaultSection hnewline hlen, assignments,
    hread, hkey, trim, hvalue.trim_eq]
  rfl

/-- The line comes back two bytes longer, and its last byte is cut off. -/
theorem load_save_load_loses_longLine :
    configNew (save (configNew longLine)) ≠ configNew longLine := by
  intro h
  obtain ⟨hsave, hbound⟩ := saveable_configNew longLine
  have hwf := wellformed_configNew longLine
  have hfits := fitting_of_configNew_save hwf hsave hbound h
  have hread : (configNew longLine).read defaultSection [107] = some longValue := by
    rw [read_configNew, fileAssignments_longLine]
    exact ⟨0, IsLast.concat_self (l := []) ⟨rfl, rfl⟩⟩
  obtain ⟨sec, hsec, -, he⟩ := hwf.read_eq_some_iff.mp hread
  have hlen := length_longValue
  rcases fits_iff.mp (hfits sec hsec _ he) with hfit | ⟨hempty, -⟩
  · simp only [hlen, List.length_singleton] at hfit
    omega
  · have hzero := congrArg List.length hempty
    simp only [hlen, List.length_nil] at hzero
    omega

/-! ## Setting a value and saving -/

/-- After `config_set_string` of the value, `config_save` and `config_new`, the
other pairs read what they read before the save, there is no section and no key
that was not there, and the pair reads the value. -/
structure Persists (config : Config) (name key v : Str) : Prop where
  others : ∀ name' key' defValue, ¬ (name' = name ∧ key' = key) →
    (configNew (save (config.setString name key v))).getString name' key' defValue =
      (config.setString name key v).getString name' key' defValue
  sections : ∀ name',
    (configNew (save (config.setString name key v))).hasSection name' = true →
      config.hasSection name' = true
  keys : ∀ name' key',
    (configNew (save (config.setString name key v))).hasKey name' key' = true →
      config.hasKey name' key' = true
  value : ∀ defValue,
    (configNew (save (config.setString name key v))).getString name key defValue = some v

theorem hasSection_of_hasKey {config : Config} {name key : Str}
    (h : config.hasKey name key = true) : config.hasSection name = true := by
  unfold hasKey at h
  rw [entryFind_eq] at h
  unfold hasSection
  cases hfind : config.sectionFind name with
  | none =>
      rw [hfind] at h
      cases h
  | some sec => rfl

theorem persists_of_configNew_save {config : Config} {name key v : Str}
    (hkey : config.hasKey name key = true)
    (h : configNew (save (config.setString name key v)) = config.setString name key v) :
    Persists config name key v := by
  refine ⟨?_, ?_, ?_, ?_⟩
  · intro name' key' defValue _
    rw [h]
  · intro name' hsec
    rw [h, hasSection, sectionFind_setString] at hsec
    split at hsec
    · rename_i hn
      exact hn ▸ hasSection_of_hasKey hkey
    · exact hsec
  · intro name' key' hk
    rw [h, hasKey_eq, read_setString] at hk
    split at hk
    · rename_i hpair
      obtain ⟨rfl, rfl⟩ := hpair
      exact hkey
    · rwa [hasKey_eq]
  · intro defValue
    rw [h, getString_eq, read_setString, if_pos ⟨rfl, rfl⟩, Option.some_or]

/-- For a config that is loaded as it was saved, a new value of one of its pairs
persists, and disturbs nothing else, exactly when it holds no newline, neither
starts nor ends with a space, and is empty or fits on a line with its key. -/
theorem set_persists_iff (config : Config) (h : configNew (save config) = config)
    (name key v : Str) (hkey : config.hasKey name key = true) (hnul : 0 ∉ v) :
    Persists config name key v ↔
      10 ∉ v ∧ Trimmed isSpace v ∧ (v = [] ∨ key.length + v.length ≤ 1020) := by
  have hwf : Wellformed config := h ▸ wellformed_configNew (save config)
  obtain ⟨hsave, hbound⟩ : Saveable config ∧ Bounded config :=
    h ▸ saveable_configNew (save config)
  have hfits := fitting_of_configNew_save hwf hsave hbound h
  have hwf' := hwf.setString name key v
  -- the pair as an entry of the config
  obtain ⟨v₀, hread⟩ : ∃ v₀, config.read name key = some v₀ := by
    rw [hasKey_eq] at hkey
    exact Option.isSome_iff_exists.mp hkey
  obtain ⟨sec, hsec, hname, he⟩ := hwf.read_eq_some_iff.mp hread
  have hcleanName : CleanName name := hname ▸ hsave.name sec hsec
  have hnameLen : name.length + 2 ≤ lineRoom := hname ▸ hsave.name_length sec hsec
  have hcleanKey : CleanKey key := hsave.key sec hsec _ he
  constructor
  · intro hpersists
    have hvalue : (configNew (save (config.setString name key v))).read name key = some v := by
      have := hpersists.value none
      rwa [getString_eq, Option.or_none] at this
    obtain ⟨buffer, hb, hassign⟩ := exists_buffer_of_read hvalue
    obtain ⟨-, hclean, hlen⟩ := (isBuffer_of_mem hb).clean_assignment hassign
    refine ⟨hclean.newline, hclean.trimmed, ?_⟩
    have hsave' := hsave.setString hcleanName hnameLen hcleanKey hclean
    have hbound' : Bounded (config.setString name key v) :=
      forall_entries_setString (R := fun k v => k.length + 1 + v.length ≤ lineRoom)
        hbound hlen
    rcases fits_iff.mp (fileFits_save hsave' hbound' buffer hb _ _ hassign) with hfit | hfit
    · exact Or.inr hfit
    · exact Or.inl hfit.1
  · rintro ⟨hnewline, htrimmed, hlen⟩
    have hsave' := hsave.setString hcleanName hnameLen hcleanKey ⟨hnul, hnewline, htrimmed⟩
    have hfit : Fits key v := by
      rcases hlen with rfl | hlen
      · rcases fits_iff.mp (hfits sec hsec _ he) with hle | hle
        · exact fits_iff.mpr (Or.inr ⟨rfl, by simp only at hle; omega⟩)
        · exact fits_iff.mpr (Or.inr ⟨rfl, hle.2⟩)
      · exact fits_iff.mpr (Or.inl hlen)
    exact persists_of_configNew_save hkey
      (configNew_save hwf' hsave' (forall_entries_setString hfits hfit))

def oneEntry : Config := newEmpty.setString [115] [107] [120]

def bracketed : Str := [91, 61, 93]

theorem set_persists_iff_bracketed :
    Persists oneEntry [115] [107] bracketed ↔
      10 ∉ bracketed ∧ Trimmed isSpace bracketed ∧
        (bracketed = [] ∨ ([107] : Str).length + bracketed.length ≤ 1020) :=
  set_persists_iff oneEntry (by decide) [115] [107] bracketed (by decide) (by decide)

def injection : Str := [120, 10, 91, 101, 93, 10, 107, 32, 61, 32, 121]

/-- The value adds the section `e` to the config that is loaded. -/
theorem set_injects_section :
    configNew (save oneEntry) = oneEntry ∧ oneEntry.hasKey [115] [107] = true ∧
      0 ∉ injection ∧
      (configNew (save (oneEntry.setString [115] [107] injection))).hasSection [101] = true ∧
      ¬ Persists oneEntry [115] [107] injection := by
  have hevil :
      (configNew (save (oneEntry.setString [115] [107] injection))).hasSection [101] = true := by
    decide
  refine ⟨by decide, by decide, by decide, hevil, ?_⟩
  intro h
  have hnew := h.sections [101] hevil
  exact absurd hnew (by decide)

end Config

end Osi
