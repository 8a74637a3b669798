import Osi.Config.Definitions
import Osi.Collection.Arrival

/-!
# The config store is an ordered two-level map

Names of sections, and keys within a section, are pairwise distinct in every
store that the calls reach, so the first match of a search is the only one. One
call then changes the reading of the pair it names and of no other, apart from
`config_remove_section`, which changes those of its section. Over a history of
calls, a pair reads what the last call that concerns it left, and the sections
and the keys of a section stand in the order of their arrival.
-/

namespace Osi

open Collection

namespace Config

variable {config : Config} {name : Str}

@[simp] theorem streq_iff (x y : Str) : streq x y = true ↔ x = y := by simp [streq]

theorem equality_streq : Equality streq where
  refl := by simp
  symm := by
    intro x y h
    rw [streq_iff] at h ⊢
    exact h.symm
  trans := by
    intro x y z hxy hyz
    rw [streq_iff] at hxy hyz ⊢
    exact hxy.trans hyz

/-- A search by string succeeds exactly for the strings that occur. -/
theorem lookup_streq_eq_none_iff {α : Type*} {f : α → Str} {x : Str} {l : List α} :
    lookup f streq x l = none ↔ x ∉ l.map f := by
  rw [lookup_eq_none_iff, List.mem_map]
  constructor
  · rintro h ⟨a, ha, rfl⟩
    have hne := h a ha
    simp [streq] at hne
  · intro h a ha
    rw [Bool.eq_false_iff, Ne, streq_iff]
    intro hx
    exact h ⟨a, ha, hx⟩

theorem mem_map_of_lookup_streq {α : Type*} {f : α → Str} {x : Str} {l : List α} {a : α}
    (h : lookup f streq x l = some a) : x ∈ l.map f := by
  by_contra hx
  rw [lookup_streq_eq_none_iff.mpr hx] at h
  cases h

/-- With equality of strings, distinct keys are keys without a repetition. -/
theorem distinct_streq_iff {α : Type*} {f : α → Str} {l : List α} :
    Distinct f streq l ↔ (l.map f).Nodup := by
  rw [Distinct, List.Nodup, List.pairwise_map]
  simp [streq, Ne]

def read (config : Config) (name key : Str) : Option Str :=
  (config.entryFind name key).map Entry.value

theorem getString_eq (config : Config) (name key : Str) (defValue : Option Str) :
    config.getString name key defValue = (config.read name key).or defValue := by
  unfold getString read
  cases config.entryFind name key <;> rfl

theorem hasKey_eq (config : Config) (name key : Str) :
    config.hasKey name key = (config.read name key).isSome := by
  simp [hasKey, read]

theorem entryFind_eq (config : Config) (name key : Str) :
    config.entryFind name key =
      (config.sectionFind name).bind fun sec => lookup Entry.key streq key sec.entries := by
  unfold entryFind
  cases config.sectionFind name <;> rfl

/-! ## Setting -/

@[simp] theorem key_setValue (value : Str) (entry : Entry) :
    (entry.setValue value).key = entry.key := rfl

@[simp] theorem name_mapEntries (f : List Entry → List Entry) (sec : Section) :
    (sec.mapEntries f).name = sec.name := rfl

theorem lookup_setEntry (key key' value : Str) (entries : List Entry) :
    (lookup Entry.key streq key' (setEntry key value entries)).map Entry.value =
      if key = key' then some value
      else (lookup Entry.key streq key' entries).map Entry.value := by
  unfold setEntry
  cases hfind : lookup Entry.key streq key entries with
  | none =>
      simp only [lookup_concat, streq_iff]
      by_cases hk : key = key'
      · subst hk
        simp [hfind]
      · simp [hk]
  | some e =>
      simp only [lookup_modifyFirst equality_streq (key_setValue value), streq_iff]
      by_cases hk : key = key'
      · subst hk
        simp [hfind, Entry.setValue]
      · simp [hk]

theorem map_key_setEntry (key value : Str) (entries : List Entry) :
    (setEntry key value entries).map Entry.key =
      if key ∈ entries.map Entry.key then entries.map Entry.key
      else entries.map Entry.key ++ [key] := by
  unfold setEntry
  cases hfind : lookup Entry.key streq key entries with
  | none =>
      rw [if_neg (lookup_streq_eq_none_iff.mp hfind), List.map_append]
      rfl
  | some e =>
      rw [if_pos (mem_map_of_lookup_streq hfind)]
      exact map_key_modifyFirst (key_setValue value)

theorem sectionFind_setString (config : Config) (name name' key value : Str) :
    (config.setString name key value).sectionFind name' =
      if name = name' then
        some (((config.sectionFind name).getD (sectionNew name)).mapEntries
          (setEntry key value))
      else config.sectionFind name' := by
  simp only [setString, sectionFind,
    lookup_modifyFirst equality_streq (name_mapEntries (setEntry key value)), streq_iff]
  cases hfind : lookup Section.name streq name config.sections with
  | none =>
      by_cases hn : name = name'
      · subst hn
        simp [lookup_concat, hfind, sectionNew]
      · simp [lookup_concat, hn, sectionNew]
  | some sec =>
      by_cases hn : name = name'
      · subst hn
        simp [hfind]
      · simp [hn]

/-- A set changes the reading of its own pair only. -/
theorem read_setString (config : Config) (name name' key key' value : Str) :
    (config.setString name key value).read name' key' =
      if name = name' ∧ key = key' then some value else config.read name' key' := by
  simp only [read, entryFind_eq, sectionFind_setString]
  by_cases hn : name = name'
  · subst hn
    simp only [if_true, true_and, Option.bind_some, Section.mapEntries, lookup_setEntry]
    cases config.sectionFind name <;> simp [sectionNew, lookup]
  · simp [hn]

theorem sectionNames_setString (config : Config) (name key value : Str) :
    (config.setString name key value).sectionNames =
      if name ∈ config.sectionNames then config.sectionNames
      else config.sectionNames ++ [name] := by
  cases hfind : config.sectionFind name with
  | none =>
      have hout : name ∉ config.sectionNames := lookup_streq_eq_none_iff.mp hfind
      have hmap : (config.setString name key value).sectionNames =
          (config.sections ++ [sectionNew name]).map Section.name := by
        simp only [setString, sectionNames, hfind]
        exact map_key_modifyFirst (name_mapEntries _)
      rw [hmap, if_neg hout, List.map_append]
      rfl
  | some sec =>
      have hin : name ∈ config.sectionNames := mem_map_of_lookup_streq hfind
      have hmap : (config.setString name key value).sectionNames =
          config.sections.map Section.name := by
        simp only [setString, sectionNames, hfind]
        exact map_key_modifyFirst (name_mapEntries _)
      rw [hmap, if_pos hin]
      rfl

theorem keys_setString (config : Config) (name name' key value : Str) :
    (config.setString name key value).keys name' =
      if name = name' then
        if key ∈ config.keys name then config.keys name else config.keys name ++ [key]
      else config.keys name' := by
  unfold keys
  rw [sectionFind_setString]
  by_cases hn : name = name'
  · subst hn
    simp only [if_true, Section.mapEntries, map_key_setEntry]
    cases config.sectionFind name <;> simp [sectionNew]
  · simp [hn]

/-! ## Removing -/

structure Wellformed (config : Config) : Prop where
  names : config.sectionNames.Nodup
  keys : ∀ name, (config.keys name).Nodup

theorem nodup_concat_of_notMem {l : List Str} (h : l.Nodup) (x : Str) :
    (if x ∈ l then l else l ++ [x]).Nodup := by
  split
  · exact h
  · rename_i hx
    exact List.nodup_append.mpr ⟨h, List.pairwise_singleton _ x, by
      intro y hy z hz hyz
      rw [List.mem_singleton.mp hz] at hyz
      exact hx (hyz ▸ hy)⟩

theorem Wellformed.setString (h : Wellformed config) (name key value : Str) :
    Wellformed (config.setString name key value) where
  names := by
    rw [sectionNames_setString]
    exact nodup_concat_of_notMem h.names name
  keys := by
    intro name'
    rw [keys_setString]
    split
    · exact nodup_concat_of_notMem (h.keys name) key
    · exact h.keys name'

theorem Wellformed.distinct_sections (h : Wellformed config) :
    Distinct Section.name streq config.sections :=
  distinct_streq_iff.mpr h.names

theorem Wellformed.distinct_entries (h : Wellformed config) {sec : Section}
    (hfind : config.sectionFind name = some sec) :
    Distinct Entry.key streq sec.entries := by
  have hkeys := h.keys name
  rw [Config.keys, hfind] at hkeys
  exact distinct_streq_iff.mpr hkeys

theorem removeSection_result (config : Config) (name : Str) :
    (config.removeSection name).2 = config.hasSection name := by
  unfold removeSection hasSection
  cases config.sectionFind name <;> rfl

theorem removeKey_result (config : Config) (name key : Str) :
    (config.removeKey name key).2 = config.hasKey name key := by
  unfold removeKey hasKey
  rw [entryFind_eq]
  cases config.sectionFind name with
  | none => rfl
  | some sec =>
      rw [Option.bind_some]
      cases lookup Entry.key streq key sec.entries <;> rfl

theorem Wellformed.sectionFind_removeSection (h : Wellformed config) (name name' : Str) :
    (config.removeSection name).1.sectionFind name' =
      if name = name' then none else config.sectionFind name' := by
  unfold removeSection
  cases hfind : config.sectionFind name with
  | none =>
      by_cases hn : name = name'
      · subst hn
        simp [hfind]
      · simp [hn]
  | some sec =>
      simp only [sectionFind, lookup_removeFirst equality_streq h.distinct_sections,
        streq_iff]

theorem sectionFind_removeKey (config : Config) (name name' key : Str) :
    (config.removeKey name key).1.sectionFind name' =
      if name = name' then
        (config.sectionFind name).map
          (Section.mapEntries (removeFirst Entry.key streq key))
      else config.sectionFind name' := by
  unfold removeKey
  rw [entryFind_eq]
  cases hfind : config.sectionFind name with
  | none =>
      by_cases hn : name = name'
      · subst hn
        simp [hfind]
      · simp [hn]
  | some sec =>
      rw [Option.bind_some]
      cases hkey : lookup Entry.key streq key sec.entries with
      | none =>
          by_cases hn : name = name'
          · subst hn
            simp [hfind, Section.mapEntries, removeFirst_of_lookup_none hkey]
          · simp [hn]
      | some e =>
          simp only [sectionFind, streq_iff,
            lookup_modifyFirst equality_streq (name_mapEntries (removeFirst _ _ key))]
          by_cases hn : name = name'
          · subst hn
            rw [if_pos rfl, if_pos rfl, ← hfind]
            rfl
          · simp [hn]

theorem Wellformed.read_removeSection (h : Wellformed config) (name name' key' : Str) :
    (config.removeSection name).1.read name' key' =
      if name = name' then none else config.read name' key' := by
  simp only [read, entryFind_eq, h.sectionFind_removeSection]
  by_cases hn : name = name'
  · simp [hn]
  · simp [hn]

theorem Wellformed.read_removeKey (h : Wellformed config) (name name' key key' : Str) :
    (config.removeKey name key).1.read name' key' =
      if name = name' ∧ key = key' then none else config.read name' key' := by
  simp only [read, entryFind_eq, sectionFind_removeKey]
  by_cases hn : name = name'
  · subst hn
    cases hfind : config.sectionFind name with
    | none => simp
    | some sec =>
        simp only [if_true, Option.map_some, Option.bind_some, Section.mapEntries, true_and,
          lookup_removeFirst equality_streq (h.distinct_entries hfind), streq_iff]
        split <;> rfl
  · simp [hn]

theorem removeFirst_map {α : Type*} {f : α → Str} {x : Str} {l : List α} :
    (removeFirst f streq x l).map f = (l.map f).erase x := by
  induction l with
  | nil => rfl
  | cons a l ih =>
      by_cases ha : f a = x
      · simp [removeFirst, ha, streq]
      · simpa [removeFirst, ha, streq] using ih

theorem Wellformed.sectionNames_removeSection (h : Wellformed config) (name : Str) :
    (config.removeSection name).1.sectionNames =
      config.sectionNames.filter fun name' => !streq name' name := by
  have herase : config.sectionNames.filter (fun name' => !streq name' name) =
      config.sectionNames.erase name := by
    rw [h.names.erase_eq_filter]
    rfl
  rw [herase]
  unfold removeSection
  cases hfind : config.sectionFind name with
  | none =>
      have hout : name ∉ config.sectionNames := lookup_streq_eq_none_iff.mp hfind
      rw [List.erase_of_not_mem hout]
  | some sec => exact removeFirst_map

theorem sectionNames_removeKey (config : Config) (name key : Str) :
    (config.removeKey name key).1.sectionNames = config.sectionNames := by
  unfold removeKey
  split
  · exact map_key_modifyFirst (name_mapEntries _)
  · rfl

theorem Wellformed.keys_removeSection (h : Wellformed config) (name name' : Str) :
    (config.removeSection name).1.keys name' =
      if name = name' then [] else config.keys name' := by
  unfold Config.keys
  rw [h.sectionFind_removeSection]
  by_cases hn : name = name'
  · simp [hn]
  · simp [hn]

theorem Wellformed.keys_removeKey (h : Wellformed config) (name name' key : Str) :
    (config.removeKey name key).1.keys name' =
      if name = name' then (config.keys name).filter fun key' => !streq key' key
      else config.keys name' := by
  have herase : (config.keys name).filter (fun key' => !streq key' key) =
      (config.keys name).erase key := by
    rw [(h.keys name).erase_eq_filter]
    rfl
  rw [herase]
  unfold Config.keys
  rw [sectionFind_removeKey]
  by_cases hn : name = name'
  · subst hn
    cases config.sectionFind name with
    | none => simp
    | some sec =>
        simp only [if_true, Option.map_some, Section.mapEntries]
        exact removeFirst_map
  · simp [hn]

/-! ## Histories -/

namespace Op

def Touches (name key : Str) : Op → Prop
  | .setString name' key' _ => name' = name ∧ key' = key
  | .setInt name' key' _ => name' = name ∧ key' = key
  | .setBool name' key' _ => name' = name ∧ key' = key
  | .removeKey name' key' => name' = name ∧ key' = key
  | .removeSection name' => name' = name

/-- What the pairs the call concerns read after it. -/
def value : Op → Option Str
  | .setString _ _ value => some value
  | .setInt _ _ value => some (formatInt value)
  | .setBool _ _ value => some (formatBool value)
  | .removeKey _ _ => none
  | .removeSection _ => none

def AddsSection (op : Op) (name : Str) : Prop :=
  op.value.isSome = true ∧ ∃ key, op.Touches name key

def DropsSection (op : Op) (name : Str) : Prop := op = .removeSection name

def AddsKey (name : Str) (op : Op) (key : Str) : Prop :=
  op.value.isSome = true ∧ op.Touches name key

def DropsKey (name : Str) (op : Op) (key : Str) : Prop :=
  op.value = none ∧ op.Touches name key

instance (name key : Str) (op : Op) : Decidable (op.Touches name key) := by
  cases op <;> unfold Touches <;> infer_instance

theorem step_eq_setString (op : Op) {v : Str} (hv : op.value = some v) :
    ∃ name key, (∀ config : Config, (config.step op).1 = config.setString name key v) ∧
      ∀ name' key', op.Touches name' key' ↔ name = name' ∧ key = key' := by
  cases op with
  | setString name key value =>
      obtain rfl : value = v := by simpa [Op.value] using hv
      exact ⟨name, key, fun _ => rfl, fun _ _ => Iff.rfl⟩
  | setInt name key value =>
      obtain rfl : formatInt value = v := by simpa [Op.value] using hv
      exact ⟨name, key, fun _ => rfl, fun _ _ => Iff.rfl⟩
  | setBool name key value =>
      obtain rfl : formatBool value = v := by simpa [Op.value] using hv
      exact ⟨name, key, fun _ => rfl, fun _ _ => Iff.rfl⟩
  | removeKey name key => simp [Op.value] at hv
  | removeSection name => simp [Op.value] at hv

end Op

/-- One call changes the readings of the pairs it concerns, and of no others. -/
theorem Wellformed.read_step (h : Wellformed config) (op : Op) (name key : Str) :
    (config.step op).1.read name key =
      if op.Touches name key then op.value else config.read name key := by
  cases hv : op.value with
  | some v =>
      obtain ⟨name', key', hstep, htouch⟩ := op.step_eq_setString hv
      rw [hstep, read_setString]
      simp only [htouch]
  | none =>
      cases op with
      | removeKey name' key' => exact h.read_removeKey name' name key' key
      | removeSection name' => exact h.read_removeSection name' name key
      | _ => simp [Op.value] at hv

/-- The names of the sections after one more call. -/
theorem Wellformed.arranged_sections (h : Wellformed config) {ops : List Op} {op : Op}
    (harr : Arranged Op.AddsSection Op.DropsSection ops config.sectionNames) :
    Arranged Op.AddsSection Op.DropsSection (ops ++ [op])
      (config.step op).1.sectionNames := by
  cases hv : op.value with
  | some v =>
      obtain ⟨name, key, hstep, htouch⟩ := op.step_eq_setString hv
      rw [hstep, sectionNames_setString]
      refine harr.add ?_ ?_ ?_
      · rintro op' name' ⟨hsome, -⟩ rfl
        simp [Op.value] at hsome
      · intro name'
        simp only [Op.AddsSection, hv, Option.isSome_some, true_and, htouch]
        constructor
        · rintro ⟨_, rfl, _⟩
          rfl
        · rintro rfl
          exact ⟨key, rfl, rfl⟩
      · rintro name' rfl
        simp [Op.value] at hv
  | none =>
      have hadds : ∀ name, ¬ op.AddsSection name := by
        rintro name ⟨hsome, -⟩
        simp [hv] at hsome
      cases op with
      | removeKey name key =>
          change Arranged _ _ _ (config.removeKey name key).1.sectionNames
          rw [sectionNames_removeKey]
          refine harr.skip hadds ?_
          intro name' hdrop
          cases hdrop
      | removeSection name =>
          change Arranged _ _ _ (config.removeSection name).1.sectionNames
          rw [h.sectionNames_removeSection]
          refine harr.drop hadds ?_
          intro name'
          simp only [Op.DropsSection, Op.removeSection.injEq, streq_iff]
          exact eq_comm
      | _ => simp [Op.value] at hv

/-- The keys of a section after one more call. -/
theorem Wellformed.arranged_keys (h : Wellformed config) {ops : List Op} {op : Op}
    {name : Str}
    (harr : Arranged (Op.AddsKey name) (Op.DropsKey name) ops (config.keys name)) :
    Arranged (Op.AddsKey name) (Op.DropsKey name) (ops ++ [op])
      ((config.step op).1.keys name) := by
  cases hv : op.value with
  | some v =>
      have hdrops : ∀ key, ¬ Op.DropsKey name op key := by
        rintro key ⟨hnone, -⟩
        simp [hv] at hnone
      obtain ⟨name', key, hstep, htouch⟩ := op.step_eq_setString hv
      rw [hstep, keys_setString]
      split
      · rename_i hn
        subst hn
        refine harr.add ?_ ?_ hdrops
        · rintro op' key' ⟨hsome, -⟩ ⟨hnone, -⟩
          simp [hnone] at hsome
        · intro key'
          simp only [Op.AddsKey, hv, htouch, Option.isSome_some, true_and]
          exact eq_comm
      · rename_i hn
        refine harr.skip ?_ hdrops
        rintro key' ⟨-, htouch'⟩
        exact hn ((htouch name key').mp htouch').1
  | none =>
      have hadds : ∀ key, ¬ Op.AddsKey name op key := by
        rintro key ⟨hsome, -⟩
        simp [hv] at hsome
      cases op with
      | removeKey name' key =>
          change Arranged _ _ _ ((config.removeKey name' key).1.keys name)
          rw [h.keys_removeKey]
          split
          · rename_i hn
            subst hn
            refine harr.drop hadds ?_
            intro key'
            simp only [Op.DropsKey, Op.value, Op.Touches, true_and, streq_iff]
            exact eq_comm
          · rename_i hn
            refine harr.skip hadds ?_
            rintro key' ⟨-, htouch⟩
            exact hn htouch.1
      | removeSection name' =>
          change Arranged _ _ _ ((config.removeSection name').1.keys name)
          rw [h.keys_removeSection]
          split
          · rename_i hn
            subst hn
            have hdrop := harr.drop (p := fun _ => true) hadds
              (by simp [Op.DropsKey, Op.value, Op.Touches])
            simpa using hdrop
          · rename_i hn
            refine harr.skip hadds ?_
            rintro key' ⟨-, htouch⟩
            exact hn htouch
      | _ => simp [Op.value] at hv

/-- In every store that a history reaches, sections and keys stand in the order
of their arrival; in particular they are distinct. -/
theorem arranged_after (ops : List Op) :
    Arranged Op.AddsSection Op.DropsSection ops (after ops).sectionNames ∧
      ∀ name, Arranged (Op.AddsKey name) (Op.DropsKey name) ops ((after ops).keys name) := by
  induction ops using List.reverseRecOn with
  | nil => exact ⟨arranged_nil, fun _ => arranged_nil⟩
  | append_singleton ops op ih =>
      have hwf : Wellformed (after ops) := ⟨ih.1.nodup, fun name => (ih.2 name).nodup⟩
      rw [after_concat]
      exact ⟨hwf.arranged_sections ih.1, fun name => hwf.arranged_keys (ih.2 name)⟩

theorem wellformed_after (ops : List Op) : Wellformed (after ops) :=
  ⟨(arranged_after ops).1.nodup, fun name => ((arranged_after ops).2 name).nodup⟩

/-- A pair reads what the last call that concerns it left. -/
theorem read_after (ops : List Op) (name key v : Str) :
    (after ops).read name key = some v ↔
      ∃ n op, IsLast (Op.Touches name key) ops n op ∧ op.value = some v := by
  induction ops using List.reverseRecOn with
  | nil =>
      have hnone : (after []).read name key = none := rfl
      rw [hnone]
      constructor
      · intro h
        cases h
      · rintro ⟨n, op, h, -⟩
        exact absurd h.lt_length (Nat.not_lt_zero n)
  | append_singleton ops op ih =>
      rw [after_concat, (wellformed_after ops).read_step]
      by_cases htouch : op.Touches name key
      · rw [if_pos htouch]
        simp [IsLast.concat_iff_of htouch]
      · rw [if_neg htouch, ih]
        simp only [IsLast.concat_iff_of_not htouch]

/-- The store is an ordered two-level map: after any history of calls, names and
keys are distinct and stand in the order of their arrival, `config_get_string`
reads what the last call concerning the pair left or else the default, the next
call changes the readings of the pairs it concerns only, and the remove
functions return whether there was anything to remove. -/
theorem config_refines_ordered_map (ops : List Op) :
    let config := after ops
    config.sectionNames.Nodup ∧
      (∀ name, (config.keys name).Nodup) ∧
      (∀ name key v defValue,
        (∃ n op, IsLast (Op.Touches name key) ops n op ∧ op.value = some v) →
          config.getString name key defValue = some v) ∧
      (∀ name key defValue,
        (∀ n op, IsLast (Op.Touches name key) ops n op → op.value = none) →
          config.getString name key defValue = defValue) ∧
      (∀ op name key defValue, ¬ op.Touches name key →
        (config.step op).1.getString name key defValue =
          config.getString name key defValue) ∧
      (∀ name key, (config.removeSection name).1.hasKey name key = false) ∧
      (∀ name key, (config.removeKey name key).2 = true ↔ config.hasKey name key = true) ∧
      (∀ name, (config.removeSection name).2 = true ↔ config.hasSection name = true) ∧
      Arranged Op.AddsSection Op.DropsSection ops config.sectionNames ∧
      ∀ name, Arranged (Op.AddsKey name) (Op.DropsKey name) ops (config.keys name) := by
  intro config
  have hwf : Wellformed config := wellformed_after ops
  refine ⟨hwf.names, hwf.keys, ?_, ?_, ?_, ?_, ?_, ?_, arranged_after ops⟩
  · intro name key v defValue hlast
    rw [getString_eq, (read_after ops name key v).mpr hlast, Option.some_or]
  · intro name key defValue hnone
    cases hread : config.read name key with
    | none => rw [getString_eq, hread, Option.none_or]
    | some v =>
        obtain ⟨n, op, hlast, hv⟩ := (read_after ops name key v).mp hread
        rw [hnone n op hlast] at hv
        cases hv
  · intro op name key defValue hother
    rw [getString_eq, getString_eq, hwf.read_step, if_neg hother]
  · intro name key
    rw [hasKey_eq, hwf.read_removeSection, if_pos rfl]
    rfl
  · intro name key
    rw [removeKey_result]
  · intro name
    rw [removeSection_result]

end Config

end Osi
