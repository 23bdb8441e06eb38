import Mips.Tool.SettingsFile.Value

/-!
# Settings files as documents

A document has entries `key = value`, and groups of entries under headers `[key]`, or `[[key]]` for
an element of a list. Dots divide keys into parts. Values may be lists and tables of values.

A key of several parts reaches into the table that its first parts name, so none of these may be the
key of a value. Otherwise a document may have a key twice, and it is for its reader to object.
-/

namespace Mips

namespace SettingsFile

/-- An entry: the parts of its key, and its value. -/
abbrev Entry := List String × Value

/-- The line above a group of entries. -/
structure Header where
  path : List String
  /-- Whether the group is an element of a list. -/
  isList : Bool
  deriving DecidableEq, Repr

/-- Entries under a header. -/
structure Group where
  header : Header
  entries : List Entry
  deriving Repr

/-- The contents of a settings file. -/
structure Document where
  /-- The entries above all headers. -/
  top : List Entry
  groups : List Group
  deriving Repr

/-! ### Keys -/

/-- The keys behind their first part, for those that have `part` as the first of several. -/
def below (part : String) (keys : List (List String)) : List (List String) :=
  keys.filterMap fun
    | first :: next :: rest => if first = part then some (next :: rest) else none
    | _ => none

/-- Whether a key may come behind the keys `earlier` of the same table. -/
def mayFollow : List String → (earlier : List (List String)) → Bool
  | part :: next :: rest, earlier =>
    match earlier.find? (·.head? == some part) with
    | none => true
    | some [_] => false
    | some _ => mayFollow (next :: rest) (below part earlier)
  | _, _ => true

/-- Whether each key may come behind those before it, where `earlier` are the keys so far. -/
def keysAgree (earlier : List (List String)) : List (List String) → Bool
  | [] => true
  | key :: keys => mayFollow key earlier && keysAgree (earlier ++ [key]) keys

/-- Whether the keys of entries of one table go together. -/
def entriesAgree (entries : List Entry) : Bool := keysAgree [] (entries.map (·.1))

/-- Whether a header may come behind the headers `earlier`, the last of them first. Of these only
those count that belong to the same element of every list above the header. A header comes once, but
for those of list elements, and a list is not named below its name first. -/
def Header.mayFollow (h : Header) (earlier : List Header) : Bool :=
  let scope := earlier.takeWhile fun e => !(e.isList && e.path.isPrefixOf h.path && e.path != h.path)
  match scope.find? (·.path = h.path) with
  | some e => e.isList && h.isList
  | none => !h.isList || !scope.any (h.path.isPrefixOf ·.path)

/-- Whether each header may come behind those before it, where `earlier` are the headers so far, the
last of them first. -/
def headersAgree (earlier : List Header) : List Header → Bool
  | [] => true
  | h :: hs => h.mayFollow earlier && headersAgree (h :: earlier) hs

/-! ### Reading

The functions that call themselves take a bound on how often they do so. The number of lexemes
bounds how deep a document is. -/

/-- The lexemes without the blanks in front. -/
def skipBlank : List Lexeme → List Lexeme
  | .blank _ :: rest => rest
  | ls => ls

/-- Whether a lexeme divides lines or parts of lines. -/
def Lexeme.isLayout : Lexeme → Bool
  | .blank _ | .newline => true
  | _ => false

/-- The lexemes without the blanks and line ends in front. -/
def skipLayout (ls : List Lexeme) : List Lexeme := ls.dropWhile (·.isLayout)

/-- What follows the end of a line. -/
def lineEnd (ls : List Lexeme) : Option (List Lexeme) :=
  match skipBlank ls with
  | [] => some []
  | .newline :: rest => some rest
  | _ => none

/-- One part of a key and what follows it. -/
def keyPart : List Lexeme → Option (String × List Lexeme)
  | .word part :: rest => some (String.ofList part, rest)
  | .string part false :: rest => some (part, rest)
  | _ => none

/-- The parts of a key, and what follows it and the blanks behind it. -/
def key : (bound : Nat) → List Lexeme → Option (List String × List Lexeme)
  | 0, _ => none
  | bound + 1, ls => do
    let (part, rest) ← keyPart ls
    match skipBlank rest with
    | .period :: rest =>
      let (parts, rest) ← key bound (skipBlank rest)
      return (part :: parts, rest)
    | rest => return ([part], rest)

mutual

/-- A value and what follows it. -/
def value : (bound : Nat) → List Lexeme → Option (Value × List Lexeme)
  | 0, _ => none
  | _ + 1, .string s _ :: rest => some (.string s, rest)
  | _ + 1, .word w :: rest => ofWord w rest
  | _ + 1, .plus :: .word w :: rest => number w rest
  | bound + 1, .openList :: rest => (elements bound (skipLayout rest)).map (.list, ·)
  | bound + 1, .openTable :: rest =>
    match skipBlank rest with
    | .closeTable :: rest => some (.table [], rest)
    | rest => do
      let (entries, rest) ← pairs bound rest
      guard (entriesAgree entries)
      return (.table entries, rest)
  | _ + 1, _ => none

/-- What follows a list, of which the elements from here on are left. -/
def elements : (bound : Nat) → List Lexeme → Option (List Lexeme)
  | 0, _ => none
  | _ + 1, .closeList :: rest => some rest
  | bound + 1, ls => do
    let (_, rest) ← value bound ls
    match skipLayout rest with
    | .comma :: rest => elements bound (skipLayout rest)
    | .closeList :: rest => return rest
    | _ => none

/-- The entries of a table inside a line, of which at least one is left, and what follows the
table. -/
def pairs : (bound : Nat) → List Lexeme → Option (List Entry × List Lexeme)
  | 0, _ => none
  | bound + 1, ls => do
    let (parts, .equals :: rest) ← key bound ls | none
    let (v, rest) ← value bound (skipBlank rest)
    match skipBlank rest with
    | .closeTable :: rest => return ([(parts, v)], rest)
    | .comma :: rest =>
      let (entries, rest) ← pairs bound (skipBlank rest)
      return ((parts, v) :: entries, rest)
    | _ => none

end

/-- A line that says something. -/
inductive Row where
  | header (header : Header)
  | entry (entry : Entry)
  deriving Repr

/-- A header behind its opening brackets, and what follows its line. -/
def headerRow (bound : Nat) (isList : Bool) (ls : List Lexeme) : Option (Row × List Lexeme) := do
  let (path, .closeList :: rest) ← key bound (skipBlank ls) | none
  let rest ← if isList then
      match rest with
      | .closeList :: rest => some rest
      | _ => none
    else some rest
  return (.header ⟨path, isList⟩, ← lineEnd rest)

/-- A row, and what follows its line. -/
def row (bound : Nat) : List Lexeme → Option (Row × List Lexeme)
  | .openList :: .openList :: rest => headerRow bound true rest
  | .openList :: rest => headerRow bound false rest
  | ls => do
    let (parts, .equals :: rest) ← key bound ls | none
    let (v, rest) ← value bound (skipBlank rest)
    return (.entry (parts, v), ← lineEnd rest)

/-- The rows of a file. -/
def rows : (bound : Nat) → List Lexeme → Option (List Row)
  | 0, _ => none
  | bound + 1, ls =>
    match skipLayout ls with
    | [] => some []
    | ls => do
      let (r, rest) ← row bound ls
      let rs ← rows bound rest
      return r :: rs

namespace Document

/-- The document with the given rows. -/
def ofRows : List Row → Document
  | [] => ⟨[], []⟩
  | .entry e :: rows =>
    let d := ofRows rows
    { d with top := e :: d.top }
  | .header h :: rows =>
    let d := ofRows rows
    ⟨[], ⟨h, d.top⟩ :: d.groups⟩

/-- Whether the keys of each table and the headers go together. -/
def isConsistent (d : Document) : Bool :=
  entriesAgree d.top && d.groups.all (entriesAgree ·.entries) &&
    headersAgree [] (d.groups.map (·.header))

/-- The document that a text spells. A byte order mark in front is dropped. -/
def read (text : String) : Option Document := do
  let cs := match text.toList with
    | '\ufeff' :: cs => cs
    | cs => cs
  let ls ← Lexeme.scan (joinReturns cs)
  let d := ofRows (← rows (2 * ls.length + 2) ls)
  guard d.isConsistent
  return d

end Document

end SettingsFile

end Mips
