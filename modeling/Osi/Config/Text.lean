import Osi.Config.Definitions
import Osi.Collection.Trim

/-!
# The text of a config

`save` gives the bytes that `config_save` writes for a config, and `configParse`
adds to a config what `config_parse` reads from a file. The parser takes the file
in pieces of at most `1023` bytes, as `fgets` fills its buffer: a piece ends
after a newline or when the buffer is full. Only the part of the buffer before
its first NUL is a string for the functions that work on it.

The bytes are those of ASCII: `9` to `13` and `32` are the characters of
`isspace`, `10` is the newline, `35` is `#`, `61` is `=`, `91` and `93` are the
brackets.
-/

namespace Osi

open Collection

namespace Config

/-! ## Reading -/

def isSpace (b : UInt8) : Bool := b == 32 || (9 ≤ b && b ≤ 13)

/-- `trim`. The string it is left with starts with a character that is not a
space, so the comparison `end_str > str` of its second loop never stops it. -/
def trim (s : Str) : Str := Collection.trim isSpace s

def cString (buffer : List UInt8) : Str := buffer.takeWhile (· != 0)

def fgets : ℕ → List UInt8 → List UInt8 × List UInt8
  | 0, file => ([], file)
  | _ + 1, [] => ([], [])
  | n + 1, b :: file =>
      if b = 10 then ([b], file)
      else
        let (line, rest) := fgets n file
        (b :: line, rest)

def lineRoom : ℕ := 1023

/-- The buffers of the loop of `config_parse`, for at most `fuel` iterations. -/
def buffersFrom : (fuel : ℕ) → List UInt8 → List (List UInt8)
  | 0, _ => []
  | fuel + 1, file =>
      if file = [] then []
      else
        let (line, rest) := fgets lineRoom file
        line :: buffersFrom fuel rest

/-- The buffers of the loop of `config_parse`; every `fgets` takes at least one
byte of the file. -/
def buffers (file : List UInt8) : List (List UInt8) := buffersFrom file.length file

inductive Line
  | ignored
  | sectionName (name : Str)
  | assignment (key value : Str)
  deriving DecidableEq, Repr

/-- The body of the loop of `config_parse`, up to what it does to the config:
blank lines and comments, section names with their closing bracket or without,
and the split at the first `=`. -/
def readBuffer (buffer : List UInt8) : Line :=
  match trim (cString buffer) with
  | [] => .ignored
  | b :: rest =>
      if b = 35 then .ignored
      else if b = 91 then
        if (b :: rest).getLast? = some 93 then .sectionName rest.dropLast else .ignored
      else if 61 ∈ b :: rest then
        .assignment (trim ((b :: rest).takeWhile (· != 61)))
          (trim (((b :: rest).dropWhile (· != 61)).drop 1))
      else .ignored

structure Parser where
  current : Str
  config : Config

def parseBuffer (state : Parser) (buffer : List UInt8) : Parser :=
  match readBuffer buffer with
  | .ignored => state
  | .sectionName name => { state with current := name }
  | .assignment key value =>
      { state with config := state.config.setString state.current key value }

def defaultSection : Str := [71, 108, 111, 98, 97, 108]

def configParse (config : Config) (file : List UInt8) : Config :=
  ((buffers file).foldl parseBuffer { current := defaultSection, config := config }).config

def configNew (file : List UInt8) : Config := configParse newEmpty file

/-! ## Writing -/

def headerLine (name : Str) : List UInt8 := 91 :: name ++ [93]

theorem length_headerLine (name : Str) : (headerLine name).length = name.length + 2 := by
  simp [headerLine]

def entryLine (entry : Entry) : List UInt8 := entry.key ++ 32 :: 61 :: 32 :: entry.value

def sectionText (sec : Section) : List UInt8 :=
  headerLine sec.name ++ 10 :: sec.entries.flatMap fun entry => entryLine entry ++ [10]

/-- The loop of `config_save`: a newline separates a section from the next. -/
def sectionsText : List Section → List UInt8
  | [] => []
  | [sec] => sectionText sec
  | sec :: sec' :: sections => sectionText sec ++ 10 :: sectionsText (sec' :: sections)

def save (config : Config) : List UInt8 := sectionsText config.sections

end Config

end Osi
