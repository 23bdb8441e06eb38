import Mips.Diagnostic
import Mips.Source.Text

/-!
# Lines

A line has an optional label and an optional statement. The label ends at the first colon, unless a
character that no label holds comes before it. Behind it stands an instruction, a directive or the
definition of a constant, with its arguments.
-/

namespace Mips

/-- What a line does besides defining a label. -/
inductive Statement where
  | instruction (name : String) (args : List Token)
  | directive (name : String) (args : List Token)
  /-- The definition `name = value`. -/
  | constant (name : String) (value : List Token)
  deriving DecidableEq, Repr

/-- A line of a source. -/
structure Line where
  /-- Counted from 1. -/
  number : Nat
  label : Option String
  statement : Option Statement
  deriving DecidableEq, Repr

namespace Line

/-- The characters that end the search for a label: the colon and those that only arguments and
comments hold. -/
def stopsLabel (c : Char) : Bool :=
  c == ':' || c == '"' || c == '\x27' || c == '#' || c == ',' || c == '$' || c == '(' || c == '='

/-- The label of a line, without the blanks around it, and what follows. -/
def splitLabel (text : List Char) : Option (List Char) × List Char :=
  match text.dropWhile (!stopsLabel ·) with
  | ':' :: rest => (some (Text.trim (text.takeWhile (!stopsLabel ·))), rest)
  | _ => (none, text)

/-- The statement that tokens make. -/
def statement? : List Token → Except Problem (Option Statement)
  | [] => .ok none
  | first :: rest =>
    match first.kind, rest with
    | .name name, ⟨.assign, _⟩ :: value => .ok (some (.constant name value))
    | .name name, args => .ok (some (.instruction name args))
    | .directive name, args => .ok (some (.directive name args))
    | _, _ => .error (.notStatement first.text)

/-- The label if it is a legal name, and the problem if it is not. -/
def legalLabel : Option (List Char) → Option String × List Problem
  | none => (none, [])
  | some cs =>
    if isLegalName (String.ofList cs) then (some (String.ofList cs), [])
    else (none, [.illegalLabel (String.ofList cs)])

/-- Read a line. A line that cannot be cut into tokens is dropped with its label. -/
def read (number : Nat) (text : List Char) : Option Line × List Problem :=
  let (name, rest) := splitLabel text
  let (label, problems) := legalLabel name
  match Token.scan rest with
  | .error cause => (none, problems ++ [.token cause])
  | .ok tokens =>
    match statement? tokens with
    | .ok statement => (some ⟨number, label, statement⟩, problems)
    | .error problem => (some ⟨number, label, none⟩, problems ++ [problem])

/-- The arguments of a statement, which stand between commas. -/
def splitArgs (tokens : List Token) : List (List Token) :=
  match tokens with
  | [] => []
  | tokens =>
    tokens.foldr (fun t rest =>
      if t.kind = .comma then [] :: rest
      else match rest with
        | [] => [[t]]
        | arg :: args => (t :: arg) :: args) [[]]

end Line

/-- A source after reading: its lines, and what was wrong with them. -/
structure Source where
  lines : List Line
  diagnostics : List Diagnostic
  deriving DecidableEq, Repr

namespace Source

/-- Read every line of a text. -/
def read (text : String) : Source :=
  let readings := (Text.lines text.toList).zipIdx.map fun (line, i) => (i + 1, Line.read (i + 1) line)
  { lines := readings.filterMap (·.2.1)
    diagnostics := readings.flatMap fun (number, _, problems) => problems.map (⟨number, ·⟩) }

end Source

end Mips
