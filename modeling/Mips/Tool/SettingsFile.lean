import Mips.Settings
import Mips.Tool.SettingsFile.Document

/-!
# Settings files

A settings file has a line `key = value` for each setting that differs from the default. Keys that
are not settings are ignored, whatever their values. A setting that comes twice, a value of the wrong
kind and text that is no document spoil the whole file.
-/

namespace Mips

namespace SettingsFile

/-- What is wrong with a settings file. -/
inductive FormatError where
  | notDocument
  | repeatedKey (key : String)
  | wrongValue (key : String)
  deriving DecidableEq, Repr

/-- The text of a format error. -/
def FormatError.message : FormatError → String
  | notDocument => "the file is not a list of settings"
  | repeatedKey key => s!"the key '{key}' comes twice"
  | wrongValue key => s!"the value of '{key}' is not of its kind"

/-- The keys that are settings. -/
def names : List String := ["text_base", "data_base", "isa"]

/-- An address in a settings file. -/
def word? : Value → Option Word
  | .integer value => if 0 ≤ value ∧ value < 0x100000000 then some (BitVec.ofInt 32 value) else none
  | _ => none

/-- A revision in a settings file: its name, also as the key of the only entry of a table, which is
an empty table. -/
def isa? : Value → Option Isa
  | .string name => Isa.ofKey? name
  | .table [([name], .table [])] => Isa.ofKey? name
  | _ => none

/-- Change the setting with the given key. -/
def set (s : Settings) (value : Value) : (key : List String) → Option Settings
  | ["text_base"] => (word? value).map fun w => { s with textBase := w }
  | ["data_base"] => (word? value).map fun w => { s with dataBase := w }
  | ["isa"] => (isa? value).map fun isa => { s with isa := isa }
  | _ => none

/-- Apply entries in turn, where `given` are the settings so far. -/
def apply (s : Settings) (given : List String) : List Entry → Except FormatError Settings
  | [] => .ok s
  | (key, value) :: rest =>
    match names.find? (key.head? == some ·) with
    | none => apply s given rest
    | some name =>
      if given.contains name then .error (.repeatedKey name)
      else
        match set s value key with
        | none => .error (.wrongValue name)
        | some s => apply s (name :: given) rest

/-- The revision of a document that is a header below `isa` and nothing else: the last part of the
header is its name. -/
def headerIsa? (d : Document) : Option Isa :=
  match d.top, d.groups with
  | [], [⟨⟨"isa" :: parts, _⟩, []⟩] => parts.getLast?.bind Isa.ofKey?
  | _, _ => none

/-- The settings that a document gives. But for a revision that stands alone, no setting is a group
of entries. -/
def ofDocument (d : Document) : Except FormatError Settings :=
  match headerIsa? d with
  | some isa => .ok { isa }
  | none =>
    match names.find? fun name => d.groups.any (·.header.path.head? == some name) with
    | some name => .error (.wrongValue name)
    | none => apply {} [] d.top

/-- The settings that a text gives. -/
def read (text : String) : Except FormatError Settings :=
  match Document.read text with
  | none => .error .notDocument
  | some d => ofDocument d

/-- The text of a settings file. -/
def write (s : Settings) : String :=
  s!"text_base = {s.textBase.toNat}\ndata_base = {s.dataBase.toNat}\nisa = '{s.isa.key}'\n"

/-- Settings files as a format. -/
def format : SettingsFormat where
  read text := (read text).mapError (·.message)
  write s := .ok (write s)

end SettingsFile

end Mips
