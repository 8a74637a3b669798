import Osi.CString.Numeral
import Osi.Transition.Calls
import Osi.Collection.Keyed

/-!
# The config store

A `Config` is a `config_t`: a list of sections, each a list of entries. Sections
and entries are found by comparing strings from the front of their list, and
taken out by the pointer the search returned, that is at the place where the
search stopped. A string is the list of its bytes, without the terminating NUL.
-/

namespace Osi

open Collection

abbrev Str := List UInt8

namespace Config

structure Entry where
  key : Str
  value : Str
  deriving DecidableEq, Repr

structure Section where
  name : Str
  entries : List Entry
  deriving DecidableEq, Repr

end Config

structure Config where
  sections : List Config.Section
  deriving DecidableEq, Repr

namespace Config

def streq (x y : Str) : Bool := x == y

def newEmpty : Config where
  sections := []

def sectionNew (name : Str) : Section where
  name := name
  entries := []

def sectionFind (config : Config) (name : Str) : Option Section :=
  lookup Section.name streq name config.sections

def entryFind (config : Config) (name key : Str) : Option Entry :=
  match config.sectionFind name with
  | none => none
  | some sec => lookup Entry.key streq key sec.entries

def hasSection (config : Config) (name : Str) : Bool :=
  (config.sectionFind name).isSome

def hasKey (config : Config) (name key : Str) : Bool :=
  (config.entryFind name key).isSome

/-- `config_get_string`; `none` is `NULL`. -/
def getString (config : Config) (name key : Str) (defValue : Option Str) : Option Str :=
  match config.entryFind name key with
  | none => defValue
  | some entry => some entry.value

def Entry.setValue (value : Str) (entry : Entry) : Entry := { entry with value := value }

def setEntry (key value : Str) (entries : List Entry) : List Entry :=
  match lookup Entry.key streq key entries with
  | some _ => modifyFirst Entry.key streq key (Entry.setValue value) entries
  | none => entries ++ [{ key := key, value := value }]

def Section.mapEntries (f : List Entry → List Entry) (sec : Section) : Section :=
  { sec with entries := f sec.entries }

def setString (config : Config) (name key value : Str) : Config :=
  let sections :=
    match config.sectionFind name with
    | some _ => config.sections
    | none => config.sections ++ [sectionNew name]
  { sections := modifyFirst Section.name streq name
      (Section.mapEntries (setEntry key value)) sections }

def formatInt (value : Int32) : Str :=
  if value.toInt < 0 then 45 :: CString.decimalDigits value.toInt.natAbs
  else CString.decimalDigits value.toInt.natAbs

def setInt (config : Config) (name key : Str) (value : Int32) : Config :=
  config.setString name key (formatInt value)

def formatBool (value : Bool) : Str :=
  if value then [116, 114, 117, 101] else [102, 97, 108, 115, 101]

def setBool (config : Config) (name key : Str) (value : Bool) : Config :=
  config.setString name key (formatBool value)

def removeSection (config : Config) (name : Str) : Config × Bool :=
  match config.sectionFind name with
  | none => (config, false)
  | some _ =>
      ({ sections := removeFirst Section.name streq name config.sections }, true)

def removeKey (config : Config) (name key : Str) : Config × Bool :=
  match config.sectionFind name, config.entryFind name key with
  | some _, some _ =>
      ({ sections := modifyFirst Section.name streq name
          (Section.mapEntries (removeFirst Entry.key streq key)) config.sections }, true)
  | _, _ => (config, false)

/-- The names met by iterating with `config_section_begin`, `config_section_next`
and `config_section_name`. -/
def sectionNames (config : Config) : List Str := config.sections.map Section.name

/-- The keys of a section in their order; none for a section that is not there. -/
def keys (config : Config) (name : Str) : List Str :=
  match config.sectionFind name with
  | none => []
  | some sec => sec.entries.map Entry.key

inductive Op
  | setString (name key value : Str)
  | setInt (name key : Str) (value : Int32)
  | setBool (name key : Str) (value : Bool)
  | removeKey (name key : Str)
  | removeSection (name : Str)
  deriving DecidableEq

def step (config : Config) : Op → Config × Option Bool
  | .setString name key value => (config.setString name key value, none)
  | .setInt name key value => (config.setInt name key value, none)
  | .setBool name key value => (config.setBool name key value, none)
  | .removeKey name key =>
      let (config', result) := config.removeKey name key
      (config', some result)
  | .removeSection name =>
      let (config', result) := config.removeSection name
      (config', some result)

def after (ops : List Op) : Config := (Transition.calls step newEmpty ops).1

theorem after_concat (ops : List Op) (op : Op) :
    after (ops ++ [op]) = ((after ops).step op).1 := by
  rw [after, Transition.calls_concat]
  rfl

end Config

end Osi
