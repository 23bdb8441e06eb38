import Mips.Tool.SettingsFile.Lexeme

/-!
# Values in settings files

Numbers, dates and times are made of words and the punctuation between them, without blanks. Of a
float only that it is finite, infinite or not a number matters, and of a date only that its parts
are where they should be: no setting is a float or a date.
-/

namespace Mips

namespace SettingsFile

/-- A value in a settings file. -/
inductive Value where
  | integer (value : Int)
  | float
  | boolean (value : Bool)
  | string (value : String)
  /-- A date, a time or both. -/
  | moment
  | list
  | table (entries : List (List String × Value))
  deriving Repr

/-! ### Numbers -/

/-- Whether each `_` has a digit on both sides, where `afterDigit` tells what came before. -/
def isGrouped (afterDigit : Bool) : List Char → Bool
  | [] => afterDigit
  | '_' :: rest => afterDigit && isGrouped false rest
  | _ :: rest => isGrouped true rest

/-- The digits at the start of `cs`, and what follows. Leading zeros are allowed with `zeros`. -/
def digitRun (base : Nat) (zeros : Bool) (cs : List Char) : Option (List Char × List Char) :=
  let run := cs.takeWhile fun c => (Token.digit? base c).isSome || c == '_'
  let digits := run.filter (· != '_')
  if isGrouped false run && (zeros || digits.length ≤ 1 || digits.head? != some '0') then
    some (digits, cs.drop run.length)
  else none

/-- The number that digits spell. -/
def valueOf (base : Nat) (digits : List Char) : Nat :=
  digits.foldl (fun n c => n * base + (Token.digit? base c).getD 0) 0

/-- Whether there is a minus sign, and what follows it. -/
def sign : List Char → Bool × List Char
  | '-' :: rest => (true, rest)
  | cs => (false, cs)

/-- An integer of 64 bits. -/
def integer (base : Nat) (cs : List Char) : Option Value := do
  let (negative, cs) := if base = 10 then sign cs else (false, cs)
  let (digits, rest) ← digitRun base (base != 10) cs
  guard rest.isEmpty
  let value : Int := if negative then -(valueOf base digits) else valueOf base digits
  guard (-0x8000000000000000 ≤ value && value < 0x8000000000000000)
  return .integer value

/-- The exponent of a float whose digits are followed by `ending` in the same word and by `rest`
behind the word. -/
def exponent (ending : List Char) (rest : List Lexeme) : Option (Int × List Lexeme) :=
  match ending, rest with
  | [], rest => some (0, rest)
  | [e], .plus :: .word digits :: rest => do
    guard (e == 'e' || e == 'E')
    let (digits, []) ← digitRun 10 true digits | none
    return (valueOf 10 digits, rest)
  | e :: ending, rest => do
    guard (e == 'e' || e == 'E')
    let (negative, ending) := sign ending
    let (digits, []) ← digitRun 10 true ending | none
    return (if negative then -(valueOf 10 digits) else valueOf 10 digits, rest)

/-- Whether `mantissa * 10 ^ scale` is below the first number that rounds to infinity in 64 bits. -/
def isFinite (mantissa : Nat) (scale : Int) : Bool :=
  let bound : Nat := 1 <<< 1024 - 1 <<< 970
  if mantissa = 0 then true
  else if 310 < scale then false
  else if 0 ≤ scale then mantissa * Nat.pow 10 scale.toNat < bound
  else (Nat.toDigits 10 mantissa).length ≤ scale.natAbs || mantissa < bound * Nat.pow 10 scale.natAbs

/-- A float with the given word in front of the point, and the word behind the point if there is
one. -/
def float (word : List Char) (fraction? : Option (List Char)) (rest : List Lexeme) :
    Option (Value × List Lexeme) := do
  let (_, word) := sign word
  let (whole, ending) ← digitRun 10 false word
  let (fraction, ending) ← match fraction? with
    | none => some ([], ending)
    | some fraction => do
      guard ending.isEmpty
      digitRun 10 true fraction
  let (power, rest) ← exponent ending rest
  guard (isFinite (valueOf 10 (whole ++ fraction)) (power - fraction.length))
  return (.float, rest)

/-- A number that starts with `word` and goes on with `rest`. -/
def number (word : List Char) (rest : List Lexeme) : Option (Value × List Lexeme) :=
  match word with
  | '0' :: 'x' :: digits => (integer 16 digits).map (·, rest)
  | '0' :: 'o' :: digits => (integer 8 digits).map (·, rest)
  | '0' :: 'b' :: digits => (integer 2 digits).map (·, rest)
  | word =>
    if word.contains 'e' || word.contains 'E' then float word none rest
    else
      match rest with
      | .period :: .word fraction :: rest => float word (some fraction) rest
      | rest =>
        if (sign word).2 == "inf".toList || (sign word).2 == "nan".toList then some (.float, rest)
        else (integer 10 word).map (·, rest)

/-! ### Dates and times -/

/-- Whether a word is the start of a date: it has a `T`, or a minus sign that is neither in front nor
in an exponent. -/
def startsDate (word : List Char) : Bool :=
  let inExponent := (word.zip (word.drop 1)).any fun (a, b) => (a == 'e' || a == 'E') && b == '-'
  word.contains 'T' || word.contains 't' || ((word.drop 1).contains '-' && !inExponent)

/-- What follows a word behind `mark`, which both may be missing. -/
def optionalPart (mark : Lexeme) : List Lexeme → Option (List Lexeme)
  | l :: rest =>
    if l = mark then
      match rest with
      | .word _ :: rest => some rest
      | _ => none
    else some (l :: rest)
  | [] => some []

/-- What follows a time, of which the hour and a colon came before: minutes and seconds, and perhaps
a fraction and the distance from the standard time. -/
def clock : List Lexeme → Option (List Lexeme)
  | .word _ :: .colon :: .word _ :: rest => do
    let rest ← optionalPart .period rest
    let rest ← optionalPart .plus rest
    optionalPart .colon rest
  | _ => none

/-- What follows a date, and the time that it may have behind it or behind one space. -/
def dateRest (rest : List Lexeme) : Option (List Lexeme) :=
  let rest := match rest with
    | .blank [' '] :: .word _ :: rest => rest
    | rest => rest
  match rest with
  | .colon :: rest => clock rest
  | rest => some rest

/-! ### Words -/

/-- The value that starts with `word` and goes on with `rest`, and what follows it. -/
def ofWord (word : List Char) (rest : List Lexeme) : Option (Value × List Lexeme) :=
  if word == "true".toList then some (.boolean true, rest)
  else if word == "false".toList then some (.boolean false, rest)
  else if word == "inf".toList || word == "nan".toList ||
      word.head?.any (fun c => c.isDigit || c == '-') then
    if startsDate word then (dateRest rest).map (.moment, ·)
    else
      match rest with
      | .colon :: rest => (clock rest).map (.moment, ·)
      | rest => number word rest
  else none

end SettingsFile

end Mips
