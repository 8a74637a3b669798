import Osi.Config.Integers
import Osi.Config.Sections

/-!
# Typed values

`config_set_int` prints its number in decimal and `config_get_int` reads it with the base
that the text tells; no decimal number but `0` begins with a zero, so the two agree. The
text of a number or of a truth value is clean, and so comes back from a saved file like any
other value: the lines of the other entries have to be read as they were written, too, since
a line that is not could assign to the same pair again.
-/

namespace Osi

open Collection CString

namespace Config

def getBool (config : Config) (name key : Str) (defValue : Bool) : Bool :=
  match config.entryFind name key with
  | none => defValue
  | some entry =>
      if streq entry.value (formatBool true) then true
      else if streq entry.value (formatBool false) then false
      else defValue

/-! ### The texts of the values -/

theorem literal_formatInt (v : Int32) : IntegerLiteral (formatInt v) v.toInt := by
  have hu := unsigned_decimalDigits v.toInt.natAbs
  unfold formatInt
  split_ifs with hneg
  · have hminus := IntegerLiteral.minus (List.forall_mem_nil _) hu
    rwa [Int.ofNat_natAbs_of_nonpos hneg.le, neg_neg] at hminus
  · have hplain := IntegerLiteral.plain (List.forall_mem_nil _) hu
    rwa [Int.natAbs_of_nonneg (not_lt.mp hneg)] at hplain

theorem inIntRange_toInt (v : Int32) : InIntRange v.toInt :=
  ⟨v.le_toInt, v.toInt_lt⟩

theorem getInt_of_read_formatInt {config : Config} {name key : Str} {v : Int32}
    (h : config.read name key = some (formatInt v)) (defValue : Int32) :
    config.getInt name key defValue = v := by
  rw [getInt_of_read h, strtol_of_literal (literal_formatInt v), if_pos rfl,
    toLong_of_inIntRange (inIntRange_toInt v), Int32.ofInt_toInt]

theorem getBool_of_read_formatBool {config : Config} {name key : Str} {b : Bool}
    (h : config.read name key = some (formatBool b)) (defValue : Bool) :
    config.getBool name key defValue = b := by
  obtain ⟨entry, hentry, hvalue⟩ := Option.map_eq_some_iff.mp h
  simp only [getBool, hentry, hvalue]
  cases b <;> rfl

theorem formatInt_chars (v : Int32) : ∀ c ∈ formatInt v, c = 45 ∨ isDigit 10 c = true := by
  have hdigits : ∀ c ∈ decimalDigits v.toInt.natAbs, isDigit 10 c = true := by
    obtain ⟨c, cs, heq, hcs, -⟩ := decimalDigits_spec v.toInt.natAbs
    rw [heq]
    exact hcs
  intro c hc
  unfold formatInt at hc
  split_ifs at hc
  · exact (List.mem_cons.mp hc).imp_right (hdigits c)
  · exact .inr (hdigits c hc)

/-- A text without white space and NUL is clean. -/
theorem cleanValue_of_forall {value : Str} (h : ∀ c ∈ value, isSpace c = false ∧ c ≠ 0) :
    CleanValue value where
  nul hmem := (h 0 hmem).2 rfl
  newline hmem := absurd (h 10 hmem).1 (by decide)
  trimmed := trimmed_of_forall fun c hc => (h c hc).1

theorem cleanValue_formatInt (v : Int32) : CleanValue (formatInt v) := by
  refine cleanValue_of_forall fun c hc => ?_
  rcases formatInt_chars v c hc with rfl | hdigit
  · decide
  · refine ⟨isSpace_of_isDigit hdigit, ?_⟩
    rintro rfl
    exact absurd hdigit (by decide)

theorem cleanValue_formatBool (b : Bool) : CleanValue (formatBool b) := by
  cases b <;> decide

/-! ### Saving and loading -/

theorem Wellformed.mem_contents_iff {config : Config} (h : Wellformed config)
    {name key v : Str} : ⟨name, key, v⟩ ∈ contents config ↔ config.read name key = some v := by
  rw [h.read_eq_some_iff, contents, List.mem_flatMap]
  refine exists_congr fun sec => and_congr_right fun _ => ?_
  rw [sectionContents, List.mem_map]
  constructor
  · rintro ⟨e, he, heq⟩
    obtain ⟨rfl, rfl, rfl⟩ : sec.name = name ∧ e.key = key ∧ e.value = v := by simpa using heq
    exact ⟨rfl, he⟩
  · rintro ⟨rfl, he⟩
    exact ⟨_, he, rfl⟩

/-- A config whose lines are read as they were written reads the same after it was saved
and loaded, whether or not it has sections without entries. -/
theorem read_configNew_save {config : Config} (hwf : Wellformed config) (h : Legible config)
    (name key : Str) : (configNew (save config)).read name key = config.read name key := by
  refine Option.ext fun v => ?_
  rw [read_configNew, fileAssignments_save h]
  constructor
  · rintro ⟨n, hlast⟩
    exact hwf.mem_contents_iff.mp (List.mem_of_getElem? hlast.get)
  · intro hread
    have hmem := hwf.mem_contents_iff.mpr hread
    obtain ⟨n, a, hlast⟩ := IsLast.exists_of_mem
      (p := fun a : Assignment => a.name = name ∧ a.key = key) hmem ⟨rfl, rfl⟩
    -- the pair has one entry, so the last assignment to it is the one of `v`
    obtain ⟨name', key', v'⟩ := a
    obtain ⟨rfl, rfl⟩ : name' = name ∧ key' = key := hlast.2.1
    have hread' := hwf.mem_contents_iff.mp (List.mem_of_getElem? hlast.get)
    obtain rfl : v = v' := Option.some.inj (hread.symm.trans hread')
    exact ⟨n, hlast⟩

structure LegibleBeside (config : Config) (name key : Str) : Prop where
  names : ∀ sec ∈ config.sections, CleanName sec.name ∧ sec.name.length + 2 ≤ lineRoom
  entries : ∀ sec ∈ config.sections, ∀ e ∈ sec.entries, ¬ (name = sec.name ∧ key = e.key) →
    CleanKey e.key ∧ CleanValue e.value ∧ Fits e.key e.value

theorem LegibleBeside.setString {config : Config} {name key value : Str} (hwf : Wellformed config)
    (h : LegibleBeside config name key) (hname : CleanName name)
    (hlength : name.length + 2 ≤ lineRoom) (hkey : CleanKey key) (hvalue : CleanValue value)
    (hfits : Fits key value) : Legible (config.setString name key value) := by
  have hnames : ∀ sec ∈ (config.setString name key value).sections,
      CleanName sec.name ∧ sec.name.length + 2 ≤ lineRoom := by
    intro sec hsec
    rcases mem_setString hsec with hsec | ⟨rfl, -, -⟩
    · exact h.names sec hsec
    · exact ⟨hname, hlength⟩
  have hentries : ∀ sec ∈ (config.setString name key value).sections, ∀ e ∈ sec.entries,
      CleanKey e.key ∧ CleanValue e.value ∧ Fits e.key e.value := by
    intro sec hsec e he
    have hread := (hwf.setString name key value).read_eq_some_iff.mpr ⟨sec, hsec, rfl, he⟩
    rw [read_setString] at hread
    split_ifs at hread with hpair
    · obtain ⟨-, rfl⟩ := hpair
      rw [← Option.some.inj hread]
      exact ⟨hkey, hvalue, hfits⟩
    · obtain ⟨sec', hsec', hname', he'⟩ := hwf.read_eq_some_iff.mp hread
      exact h.entries sec' hsec' ⟨e.key, e.value⟩ he' (by rw [hname']; exact hpair)
  exact ⟨fun sec hs => (hnames sec hs).1, fun sec hs => (hnames sec hs).2,
    fun sec hs e he => (hentries sec hs e he).1, fun sec hs e he => (hentries sec hs e he).2.1,
    fun sec hs e he => (hentries sec hs e he).2.2⟩

/-- A value of the right form that is set, saved and loaded is read. -/
theorem read_after_save {config : Config} {name key value : Str} (hwf : Wellformed config)
    (h : LegibleBeside config name key) (hname : CleanName name)
    (hlength : name.length + 2 ≤ lineRoom) (hkey : CleanKey key) (hvalue : CleanValue value)
    (hfits : Fits key value) :
    (configNew (save (config.setString name key value))).read name key = some value := by
  rw [read_configNew_save (hwf.setString name key value)
    (h.setString hwf hname hlength hkey hvalue hfits), read_setString, if_pos ⟨rfl, rfl⟩]

/-- In every config that a file and calls make, a number or a truth value that was set is
read; and so it is after the config was saved and loaded, if the pair and what the config
holds besides it have the form that can be saved. -/
theorem typed_values_survive (file : List UInt8) (ops : List Op) (name key : Str) :
    let config := (Transition.calls step (configNew file) ops).1
    (∀ v defValue, (config.setInt name key v).getInt name key defValue = v) ∧
      (∀ b defValue, (config.setBool name key b).getBool name key defValue = b) ∧
      (CleanName name → name.length + 2 ≤ lineRoom → CleanKey key →
        LegibleBeside config name key →
        (∀ v defValue, Fits key (formatInt v) →
          (configNew (save (config.setInt name key v))).getInt name key defValue = v) ∧
        ∀ b defValue, Fits key (formatBool b) →
          (configNew (save (config.setBool name key b))).getBool name key defValue = b) := by
  intro config
  have hwf : Wellformed config :=
    Transition.calls_invariant (fun _ op h => h.step op) (wellformed_configNew file) ops
  have hread : ∀ value, (config.setString name key value).read name key = some value := by
    intro value
    rw [read_setString, if_pos ⟨rfl, rfl⟩]
  refine ⟨fun v => getInt_of_read_formatInt (hread _),
    fun b => getBool_of_read_formatBool (hread _),
    fun hname hlength hkey hbeside => ⟨fun v defValue hfits => ?_, fun b defValue hfits => ?_⟩⟩
  · exact getInt_of_read_formatInt
      (read_after_save hwf hbeside hname hlength hkey (cleanValue_formatInt v) hfits) defValue
  · exact getBool_of_read_formatBool
      (read_after_save hwf hbeside hname hlength hkey (cleanValue_formatBool b) hfits) defValue

def twoSections : List Op := [.setString [115] [108] [120], .setString [116] [] []]

/-- The least `int` and a truth value in the first of the sections. -/
theorem typed_values_survive_twoSections :
    let config := (Transition.calls step (configNew []) twoSections).1
    (configNew (save (config.setInt [115] [107] Int32.minValue))).getInt [115] [107] 7 =
        Int32.minValue ∧
      (configNew (save (config.setBool [115] [107] false))).getBool [115] [107] true = false := by
  obtain ⟨-, -, hsaved⟩ := typed_values_survive [] twoSections [115] [107]
  obtain ⟨hint, hbool⟩ := hsaved (by decide) (by decide) (by decide) ⟨by decide, by decide⟩
  exact ⟨hint Int32.minValue 7 (by decide), hbool false true (by decide)⟩

/-- The section `s` with `k = 0`, and behind it the section `t` with a value of three lines,
`x`, `[s]` and `k = 5`. -/
def assigningAgain : List Op :=
  [.setInt [115] [107] 0,
    .setString [116] [106] [120, 10, 91, 115, 93, 10, 107, 32, 61, 32, 53]]

/-- The value of another section assigns to the pair when the saved file is loaded. -/
theorem typed_value_overwritten :
    let config := (Transition.calls step (configNew []) assigningAgain).1
    CleanName [115] ∧ CleanKey [107] ∧ Fits [107] (formatInt 1) ∧
      (config.setInt [115] [107] 1).getInt [115] [107] 0 = 1 ∧
      (configNew (save (config.setInt [115] [107] 1))).getInt [115] [107] 0 = 5 := by
  decide

end Config

end Osi
