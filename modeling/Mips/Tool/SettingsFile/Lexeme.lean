import Mips.Source.Token

/-!
# Lexemes of settings files

A settings file is cut into words, strings, punctuation, blanks and line ends. Comments go with the
line end behind them. A carriage return counts only as a part of a line end.

Strings stand between quotes. In double quotes a backslash starts an escape, in single quotes it is
a character like others. A long string has three quotes on each side and may run over lines; a line
end right behind the opening quotes does not belong to it, and up to two more quotes may stand in
front of the closing ones.
-/

namespace Mips

namespace SettingsFile

/-- A lexeme of a settings file. -/
inductive Lexeme where
  | blank (text : List Char)
  | newline
  | equals
  | period
  | comma
  | colon
  | plus
  | openTable
  | closeTable
  | openList
  | closeList
  /-- A bare key, a number, a boolean or a part of a date. -/
  | word (text : List Char)
  | string (value : String) (long : Bool)
  deriving DecidableEq, Repr

/-! ### Characters -/

/-- The characters of words. -/
def isWordChar (c : Char) : Bool := c.isAlphanum || c == '-' || c == '_'

/-- The blanks inside a line. -/
def isSpace (c : Char) : Bool := c == ' ' || c == '\t'

/-- The characters that may stand in a comment. -/
def isCommentChar (c : Char) : Bool := c == '\t' || c.toNat ≥ 0x20

/-- The characters that may stand in a string. -/
def isStringChar (c : Char) : Bool := isCommentChar c && c.toNat != 0x7f

/-- The characters with line ends of one character. -/
def joinReturns : List Char → List Char
  | '\r' :: '\n' :: rest => '\n' :: joinReturns rest
  | c :: rest => c :: joinReturns rest
  | [] => []

/-- The lexeme that is the one character `c`. -/
def mark? : Char → Option Lexeme
  | '\n' => some .newline
  | '=' => some .equals
  | '.' => some .period
  | ',' => some .comma
  | ':' => some .colon
  | '+' => some .plus
  | '\x7b' => some .openTable
  | '\x7d' => some .closeTable
  | '[' => some .openList
  | ']' => some .closeList
  | _ => none

/-! ### Strings -/

/-- The quotes around a string. -/
structure Quotes where
  mark : Char
  /-- Whether there are three on each side. -/
  long : Bool
  deriving DecidableEq, Repr

/-- The character with the code point that the first `width` of `cs` spell in hexadecimal. -/
def codePoint? (width : Nat) (cs : List Char) : Option Char := do
  let values ← (cs.take width).mapM (Token.digit? 16)
  guard (values.length = width)
  let n := values.foldl (fun n d => 16 * n + d) 0
  if n.isValidChar then some (Char.ofNat n) else none

/-- How many characters a line end that is left out takes, with the blanks in front of it and all
the blanks and line ends behind it. -/
def lineJoin? (cs : List Char) : Option Nat :=
  let before := (cs.takeWhile isSpace).length
  match cs.drop before with
  | '\n' :: rest => some (before + 1 + (rest.takeWhile fun c => isSpace c || c == '\n').length)
  | _ => none

/-- What an escape stands for and how many characters it takes, given what follows the backslash.
Only long strings leave out line ends. -/
def escape (long : Bool) : List Char → Option (List Char × Nat)
  | '"' :: _ => some (['"'], 1)
  | '\\' :: _ => some (['\\'], 1)
  | 'b' :: _ => some (['\x08'], 1)
  | 'f' :: _ => some (['\x0c'], 1)
  | 'n' :: _ => some (['\n'], 1)
  | 'r' :: _ => some (['\r'], 1)
  | 't' :: _ => some (['\t'], 1)
  | 'u' :: rest => (codePoint? 4 rest).map fun c => ([c], 5)
  | 'U' :: rest => (codePoint? 8 rest).map fun c => ([c], 9)
  | rest => if long then (lineJoin? rest).map ([], ·) else none

/-- What `c` stands for inside a string, and how many characters behind it belong to that. -/
def Quotes.inside (q : Quotes) (c : Char) (rest : List Char) : Option (List Char × Nat) :=
  if c == '\\' && q.mark == '"' then escape q.long rest
  else if isStringChar c || (c == '\n' && q.long) then some ([c], 0)
  else none

/-- The end of a string: the quotes that still belong to it, and how many characters the end
takes. -/
def Quotes.close? (q : Quotes) (c : Char) (rest : List Char) : Option (List Char × Nat) :=
  if c != q.mark then none
  else if !q.long then some ([], 1)
  else if rest.take 2 == [q.mark, q.mark] then
    let more := ((rest.drop 2).take 2).takeWhile (· == q.mark)
    some (more, 3 + more.length)
  else none

/-- The contents of a string up to its end, and how many characters they take with the end. -/
def Quotes.contents (q : Quotes) : List Char → Option (List Char × Nat)
  | [] => none
  | c :: rest =>
    match q.close? c rest with
    | some found => some found
    | none =>
      match q.inside c rest with
      | none => none
      | some (cs, n) => (q.contents (rest.drop n)).map fun (tail, m) => (cs ++ tail, n + m + 1)
termination_by cs => cs.length
decreasing_by simp only [List.length_drop, List.length_cons]; omega

/-- The string behind a quote, and how many characters it takes. -/
def quoted (mark : Char) (rest : List Char) : Option (Lexeme × Nat) :=
  if rest.take 2 == [mark, mark] then
    let lead := 2 + ((rest.drop 2).take 1).count '\n'
    (Quotes.contents ⟨mark, true⟩ (rest.drop lead)).map fun (cs, n) =>
      (.string (String.ofList cs) true, lead + n)
  else
    (Quotes.contents ⟨mark, false⟩ rest).map fun (cs, n) => (.string (String.ofList cs) false, n)

/-! ### Lexemes -/

/-- The lexeme that starts with `c`, none for a comment, and how many characters behind `c` belong to
it. -/
def Lexeme.starting (c : Char) (rest : List Char) : Option (Option Lexeme × Nat) :=
  if c == '#' then some (none, (rest.takeWhile isCommentChar).length)
  else if isSpace c then
    let more := rest.takeWhile isSpace
    some (some (.blank (c :: more)), more.length)
  else if isWordChar c then
    let more := rest.takeWhile isWordChar
    some (some (.word (c :: more)), more.length)
  else if c == '"' || c == '\x27' then (quoted c rest).map fun (l, n) => (some l, n)
  else (mark? c).map fun l => (some l, 0)

/-- The lexemes of a text. -/
def Lexeme.scan : List Char → Option (List Lexeme)
  | [] => some []
  | c :: rest =>
    match Lexeme.starting c rest with
    | none => none
    | some (l?, n) => (Lexeme.scan (rest.drop n)).map (l?.toList ++ ·)
termination_by cs => cs.length
decreasing_by simp only [List.length_drop, List.length_cons]; omega

end SettingsFile

end Mips
