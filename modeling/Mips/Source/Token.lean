import Mips.Object.Symbol
import Mips.Source.Operator

/-!
# Tokens

A line is cut into tokens from left to right, each as long as it can be. Between tokens stand
blanks, and a `#` ends the line. Every token keeps the text it was read from.

`lexeme` reads the token that starts with a given character and says how many further characters
belong to it, so that the text of a token and the rest of the line never overlap and lose nothing.
-/

namespace Mips

/-! ### Token kinds and errors -/

/-- What a token is. -/
inductive TokenKind where
  /-- A name, wherever it stands. Cutting a line gives names of this kind only; the three that follow
  are for names whose place in the line is known, and are no operands. -/
  | name (name : String)
  /-- The name of a label, in front of its colon. -/
  | label (name : String)
  /-- The name of an instruction, in front of its operands. -/
  | mnemonic (name : String)
  /-- The name of a constant, in front of its `=`. -/
  | definition (name : String)
  /-- A dot and a name. -/
  | directive (name : String)
  /-- A dollar sign and the name of a register, which need not exist. -/
  | register (name : String)
  /-- A number, or the code point of a character literal. -/
  | number (value : Word)
  /-- A string literal, with its escapes resolved. -/
  | string (value : String)
  | operator (op : Operator)
  /-- The address of the line, written `.`. -/
  | here
  | assign
  | comma
  | leftParen
  | rightParen
  deriving DecidableEq, Repr

/-- A token and the text it was read from. -/
structure Token where
  kind : TokenKind
  text : String
  deriving DecidableEq, Repr

/-- Why digits are no number. -/
inductive NumberError where
  | empty
  | invalidDigit
  | tooLarge
  deriving DecidableEq, Repr

/-- Why a line cannot be cut into tokens. -/
inductive TokenError where
  | number (digits : String) (cause : NumberError)
  | unknownEscape (c : Char)
  | unterminatedLiteral
  | unterminatedString
  | unterminatedCharacter
  | emptyCharacter
  | missingRegister
  | unknownCharacter (c : Char)
  deriving DecidableEq, Repr

namespace NumberError

def message : NumberError → String
  | empty => "cannot parse integer from empty string"
  | invalidDigit => "invalid digit found in string"
  | tooLarge => "number too large to fit in target type"

end NumberError

namespace TokenError

def message : TokenError → String
  | number digits cause => "invalid number '" ++ digits ++ "': " ++ cause.message
  | unknownEscape c => "invalid escape sequence '\\" ++ c.toString ++ "'"
  | unterminatedLiteral => "unterminated literal"
  | unterminatedString => "unterminated string literal"
  | unterminatedCharacter => "unterminated character literal"
  | emptyCharacter => "empty character literal"
  | missingRegister => "expected register name after '$'"
  | unknownCharacter c => "invalid token '" ++ c.toString ++ "'"

end TokenError

namespace Token

/-! ### Numbers -/

/-- The value of a digit in the given base. -/
def digit? (base : Nat) (c : Char) : Option Nat :=
  let value? :=
    if c.isDigit then some (c.toNat - '0'.toNat)
    else if c.isLower then some (c.toNat - 'a'.toNat + 10)
    else if c.isUpper then some (c.toNat - 'A'.toNat + 10)
    else none
  value?.filter (· < base)

/-- Read on with one digit; the value has to stay below `2 ^ 32`. -/
def addDigit (base value : Nat) (c : Char) : Except NumberError Nat :=
  match digit? base c with
  | none => .error .invalidDigit
  | some d => if value * base + d < 0x100000000 then .ok (value * base + d) else .error .tooLarge

/-- The number with the given digits. -/
def readNumber (base : Nat) (digits : List Char) : Except NumberError Word :=
  if digits.isEmpty then .error .empty
  else (digits.foldlM (addDigit base) 0).map (BitVec.ofNat 32)

/-- The digits of the number that starts with the digit `c`: their base, the digits without the mark
of the base, and how many characters of `rest` belong to the number. -/
def numeral (c : Char) (rest : List Char) : Nat × List Char × Nat :=
  let based (base : Nat) (rest : List Char) :=
    let digits := rest.takeWhile isNameChar
    (base, digits, digits.length + 1)
  match c, rest with
  | '0', 'x' :: rest => based 16 rest
  | '0', 'X' :: rest => based 16 rest
  | '0', 'b' :: rest => based 2 rest
  | '0', 'B' :: rest => based 2 rest
  | c, rest =>
    let digits := rest.takeWhile isNameChar
    (10, c :: digits, digits.length)

/-! ### Literals -/

/-- The character that a backslash and `c` stand for. -/
def unescape? : Char → Option Char
  | 't' => some '\t'
  | 'r' => some '\r'
  | 'n' => some '\n'
  | '0' => some '\x00'
  | '\\' => some '\\'
  | '"' => some '"'
  | '\x27' => some '\x27'
  | _ => none

/-- What follows the opening quote of a string: the characters of the string, and how many
characters there are up to and with the closing quote. -/
def stringTail : List Char → Except TokenError (List Char × Nat)
  | [] => .error .unterminatedString
  | ['\\'] => .error .unterminatedLiteral
  | '\\' :: e :: rest =>
    match unescape? e with
    | none => .error (.unknownEscape e)
    | some c => (stringTail rest).map fun (cs, n) => (c :: cs, n + 2)
  | c :: rest =>
    if c = '"' then .ok ([], 1)
    else (stringTail rest).map fun (cs, n) => (c :: cs, n + 1)

/-- The closing quote of the character literal for `c`, which has taken `n` characters so far. -/
def closeCharacter (c : Char) (n : Nat) : List Char → Except TokenError (Char × Nat)
  | '\x27' :: _ => .ok (c, n + 1)
  | _ => .error .unterminatedCharacter

/-- What follows the opening quote of a character literal: the character, and how many characters
there are up to and with the closing quote. -/
def characterTail : List Char → Except TokenError (Char × Nat)
  | [] => .error .unterminatedLiteral
  | ['\\'] => .error .unterminatedLiteral
  | '\\' :: e :: rest =>
    match unescape? e with
    | none => .error (.unknownEscape e)
    | some c => closeCharacter c 2 rest
  | c :: rest => if c = '\x27' then .error .emptyCharacter else closeCharacter c 1 rest

/-! ### Tokens -/

/-- The tokens that are one character. -/
def symbol? : Char → Option TokenKind
  | ',' => some .comma
  | '(' => some .leftParen
  | ')' => some .rightParen
  | '=' => some .assign
  | '+' => some (.operator .add)
  | '-' => some (.operator .sub)
  | '*' => some (.operator .mul)
  | '/' => some (.operator .div)
  | '%' => some (.operator .mod)
  | '&' => some (.operator .and)
  | '|' => some (.operator .or)
  | '^' => some (.operator .xor)
  | _ => none

/-- What follows a dot: the name of a directive, or nothing that belongs to the dot. -/
def afterDot : List Char → TokenKind × Nat
  | [] => (.here, 0)
  | c :: rest =>
    if isNameStart c then
      let tail := rest.takeWhile isNameChar
      (.directive (String.ofList (c :: tail)), tail.length + 1)
    else (.here, 0)

/-- The token that starts with `c`, and how many characters of `rest` belong to it. -/
def lexeme (c : Char) (rest : List Char) : Except TokenError (TokenKind × Nat) :=
  if isNameStart c then
    let tail := rest.takeWhile isNameChar
    .ok (.name (String.ofList (c :: tail)), tail.length)
  else if c.isDigit then
    let (base, digits, n) := numeral c rest
    match readNumber base digits with
    | .ok value => .ok (.number value, n)
    | .error cause => .error (.number (String.ofList digits) cause)
  else if c = '"' then
    (stringTail rest).map fun (cs, n) => (.string (String.ofList cs), n)
  else if c = '\x27' then
    (characterTail rest).map fun (c, n) => (.number (BitVec.ofNat 32 c.toNat), n)
  else if c = '.' then
    .ok (afterDot rest)
  else if c = '$' then
    let name := rest.takeWhile isNameChar
    if name.isEmpty then .error .missingRegister
    else .ok (.register (String.ofList name), name.length)
  else match symbol? c with
    | some kind => .ok (kind, 0)
    | none => .error (.unknownCharacter c)

/-- The blanks between tokens. -/
def isSpace (c : Char) : Bool := c == ' ' || c == '\t' || c == '\r'

/-- What follows a token is shorter than the line it is in. -/
theorem length_rest_lt {line rest : List Char} {c : Char} (h : line.dropWhile isSpace = c :: rest)
    (n : Nat) : (rest.drop n).length < line.length := by
  have shorter := (List.dropWhile_suffix (l := line) isSpace).length_le
  rw [h, List.length_cons] at shorter
  rw [List.length_drop]
  omega

/-- The tokens of a line. -/
def scan (line : List Char) : Except TokenError (List Token) :=
  match h : line.dropWhile isSpace with
  | [] => .ok []
  | c :: rest =>
    if c = '#' then .ok []
    else
      match lexeme c rest with
      | .error e => .error e
      | .ok (kind, n) =>
        have := length_rest_lt h n
        (scan (rest.drop n)).map (⟨kind, String.ofList (c :: rest.take n)⟩ :: ·)
termination_by line.length
decreasing_by assumption

/-- The text of a run of tokens, with a blank between two of them. -/
def spanText (tokens : List Token) : String := " ".intercalate (tokens.map (·.text))

end Token

end Mips
