import Osi.Config.Persistence

/-!
# Sections without a key

The header of `config.h` says that a section with no key is treated as if it did
not exist. `config_set_string`, and so the parser, makes a section only to put a
key into it, and `config_remove_section` takes the section with its keys. But
`config_remove_key` leaves the section in the list when it takes out its only
key. The property holds along a history of calls exactly if no call does that.
-/

namespace Osi

open Collection

namespace Config

variable {config : Config} {name key : Str}

theorem hasSection_iff : config.hasSection name = true ↔ name ∈ config.sectionNames := by
  rw [hasSection, sectionFind, Option.isSome_iff_ne_none, Ne, lookup_streq_eq_none_iff,
    not_not]
  rfl

theorem hasKey_iff : config.hasKey name key = true ↔ key ∈ config.keys name := by
  rw [hasKey, entryFind_eq, keys]
  cases config.sectionFind name with
  | none => simp
  | some sec =>
      rw [Option.bind_some, Option.isSome_iff_ne_none, Ne, lookup_streq_eq_none_iff, not_not]

/-- `config_has_section` tells whether the section has a key, and every section
met by iterating has one. -/
structure NoEmptySection (config : Config) : Prop where
  hasSection_iff : ∀ name,
    config.hasSection name = true ↔ ∃ key, config.hasKey name key = true
  iterated : ∀ sec ∈ config.sections, sec.entries ≠ []

/-- With distinct names the iteration meets the sections that the search finds. -/
theorem Wellformed.noEmptySection_iff (h : Wellformed config) :
    NoEmptySection config ↔ ∀ name ∈ config.sectionNames, config.keys name ≠ [] := by
  constructor
  · intro hall name hname
    obtain ⟨key, hkey⟩ := (hall.hasSection_iff name).mp (hasSection_iff.mpr hname)
    exact List.ne_nil_of_mem (hasKey_iff.mp hkey)
  · intro hall
    refine ⟨?_, ?_⟩
    · intro name
      constructor
      · intro hsec
        obtain ⟨key, hkey⟩ := List.exists_mem_of_ne_nil _ (hall name (hasSection_iff.mp hsec))
        exact ⟨key, hasKey_iff.mpr hkey⟩
      · rintro ⟨key, hkey⟩
        exact hasSection_of_hasKey hkey
    · intro sec hsec hnil
      refine hall sec.name (List.mem_map_of_mem hsec) ?_
      rw [Config.keys, h.sectionFind_of_mem hsec]
      simp only [hnil, List.map_nil]

/-- The call does not take the only key out of its section. -/
def KeepsSection (config : Config) : Op → Prop
  | .removeKey name key => config.keys name ≠ [key]
  | _ => True

theorem Wellformed.removeKey (h : Wellformed config) (name key : Str) :
    Wellformed (config.removeKey name key).1 where
  names := by
    rw [sectionNames_removeKey]
    exact h.names
  keys := by
    intro name'
    rw [h.keys_removeKey]
    split
    · exact (h.keys name).filter _
    · exact h.keys name'

theorem Wellformed.removeSection (h : Wellformed config) (name : Str) :
    Wellformed (config.removeSection name).1 where
  names := by
    rw [h.sectionNames_removeSection]
    exact h.names.filter _
  keys := by
    intro name'
    rw [h.keys_removeSection]
    split
    · exact List.nodup_nil
    · exact h.keys name'

theorem Wellformed.step (h : Wellformed config) (op : Op) :
    Wellformed (config.step op).1 := by
  cases op with
  | setString name key value => exact h.setString name key value
  | setInt name key value => exact h.setString name key _
  | setBool name key value => exact h.setString name key _
  | removeKey name key => exact h.removeKey name key
  | removeSection name => exact h.removeSection name

theorem noEmptySection_setString (h : Wellformed config) (hne : NoEmptySection config)
    (name key value : Str) : NoEmptySection (config.setString name key value) := by
  rw [(h.setString name key value).noEmptySection_iff]
  intro name' hname'
  rw [keys_setString]
  split
  · split
    · rename_i hkey
      exact List.ne_nil_of_mem hkey
    · simp
  · rename_i hn
    refine (h.noEmptySection_iff.mp hne) name' ?_
    rw [sectionNames_setString] at hname'
    split at hname'
    · exact hname'
    · rcases List.mem_append.mp hname' with hold | hnew
      · exact hold
      · exact absurd (List.mem_singleton.mp hnew).symm hn

/-- Taking a key out of a list without repetitions empties it exactly if it was
the only one. -/
theorem filter_ne_eq_nil_iff {l : List Str} (hl : l.Nodup) (hne : l ≠ []) :
    (l.filter fun key' => !streq key' key) = [] ↔ l = [key] := by
  constructor
  · intro hnil
    have hall : ∀ x ∈ l, x = key := by
      intro x hx
      by_contra hxk
      have hmem : x ∈ l.filter fun key' => !streq key' key :=
        List.mem_filter.mpr ⟨hx, by simp [streq, hxk]⟩
      rw [hnil] at hmem
      cases hmem
    cases l with
    | nil => exact absurd rfl hne
    | cons x l =>
        obtain rfl := hall x List.mem_cons_self
        cases l with
        | nil => rfl
        | cons y l =>
            have hy := hall y (by simp)
            rw [hy] at hl
            simp at hl
  · rintro rfl
    simp [streq]

theorem noEmptySection_removeKey_iff (h : Wellformed config) (hne : NoEmptySection config)
    (name key : Str) :
    NoEmptySection (config.removeKey name key).1 ↔ config.keys name ≠ [key] := by
  rw [(h.removeKey name key).noEmptySection_iff, sectionNames_removeKey]
  have hall := h.noEmptySection_iff.mp hne
  constructor
  · intro hafter honly
    have hname : name ∈ config.sectionNames := by
      have hkey : config.hasKey name key = true := by
        rw [hasKey_iff, honly]
        exact List.mem_singleton_self key
      exact hasSection_iff.mp (hasSection_of_hasKey hkey)
    refine hafter name hname ?_
    rw [h.keys_removeKey, if_pos rfl]
    exact (filter_ne_eq_nil_iff (h.keys name) (hall name hname)).mpr honly
  · intro hmore name' hname'
    rw [h.keys_removeKey]
    split
    · rename_i hn
      subst hn
      exact mt (filter_ne_eq_nil_iff (h.keys name) (hall name hname')).mp hmore
    · exact hall name' hname'

theorem noEmptySection_removeSection (h : Wellformed config) (hne : NoEmptySection config)
    (name : Str) : NoEmptySection (config.removeSection name).1 := by
  rw [(h.removeSection name).noEmptySection_iff]
  intro name' hname'
  rw [h.sectionNames_removeSection, List.mem_filter] at hname'
  have hn : name ≠ name' := by
    rintro rfl
    simp [streq] at hname'
  rw [h.keys_removeSection, if_neg hn]
  exact h.noEmptySection_iff.mp hne name' hname'.1

theorem noEmptySection_step_iff (h : Wellformed config) (hne : NoEmptySection config)
    (op : Op) : NoEmptySection (config.step op).1 ↔ config.KeepsSection op := by
  cases op with
  | setString name key value =>
      exact iff_of_true (noEmptySection_setString h hne name key value) trivial
  | setInt name key value =>
      exact iff_of_true (noEmptySection_setString h hne name key _) trivial
  | setBool name key value =>
      exact iff_of_true (noEmptySection_setString h hne name key _) trivial
  | removeKey name key => exact noEmptySection_removeKey_iff h hne name key
  | removeSection name => exact iff_of_true (noEmptySection_removeSection h hne name) trivial

/-- A loaded config has no section without a key. -/
theorem noEmptySection_configNew (file : List UInt8) : NoEmptySection (configNew file) := by
  have hgrow : ∀ (l : List Assignment) (config : Config), Wellformed config →
      NoEmptySection config → NoEmptySection (l.foldl assign config) := by
    intro l
    induction l with
    | nil => exact fun _ _ hne => hne
    | cons a l ih =>
        intro config h hne
        exact ih _ (h.setString _ _ _) (noEmptySection_setString h hne _ _ _)
  rw [configNew_eq_after, after_map_op]
  have hempty : Wellformed newEmpty := wellformed_after []
  exact hgrow _ _ hempty (hempty.noEmptySection_iff.mpr (by simp [newEmpty, sectionNames]))

/-- From any file and for any history of calls, no state on the way has a section
without a key exactly if no `config_remove_key` of the history takes the only key
out of its section. -/
theorem no_empty_section_iff (file : List UInt8) (ops : List Op) :
    (∀ pre post, ops = pre ++ post →
      NoEmptySection (Transition.calls step (configNew file) pre).1) ↔
    ∀ pre op post, ops = pre ++ op :: post →
      (Transition.calls step (configNew file) pre).1.KeepsSection op := by
  have hwf : Wellformed (configNew file) := wellformed_configNew file
  have hne : NoEmptySection (configNew file) := noEmptySection_configNew file
  exact Transition.calls_along_iff (I := Wellformed) (P := NoEmptySection)
    (fun _ op h => h.step op) (fun _ op h hne => noEmptySection_step_iff h hne op)
    hwf hne ops

def setAndRemove : List Op := [.setString [115] [107] [118], .removeKey [115] [107]]

theorem remove_key_leaves_empty_section :
    (Transition.calls step (configNew []) setAndRemove).1.hasSection [115] = true ∧
      (∀ key, (Transition.calls step (configNew []) setAndRemove).1.hasKey [115] key = false) ∧
      ¬ NoEmptySection (Transition.calls step (configNew []) setAndRemove).1 := by
  have hsec : (Transition.calls step (configNew []) setAndRemove).1.hasSection [115] = true := by
    decide
  have hkeys : (Transition.calls step (configNew []) setAndRemove).1.keys [115] = [] := by
    decide
  have hnone : ∀ key,
      (Transition.calls step (configNew []) setAndRemove).1.hasKey [115] key = false := by
    intro key
    rw [Bool.eq_false_iff, Ne, hasKey_iff, hkeys]
    exact List.not_mem_nil
  refine ⟨hsec, hnone, ?_⟩
  intro hne
  obtain ⟨key, hkey⟩ := (hne.hasSection_iff [115]).mp hsec
  rw [hnone key] at hkey
  cases hkey

end Config

end Osi
