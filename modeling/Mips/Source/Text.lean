/-!
# Source text

A source is a list of lines. This module cuts a text into lines and trims the blanks around a name.
-/

namespace Mips

namespace Text

/-- The pieces of a text between its line feeds: one more than there are line feeds. -/
def pieces (cs : List Char) : List (List Char) :=
  cs.foldr (fun c rest =>
    if c = '\n' then [] :: rest
    else match rest with
      | [] => [[c]]
      | line :: lines => (c :: line) :: lines) [[]]

/-- A line that a line feed ended, without the carriage return before it. -/
def dropReturn (line : List Char) : List Char :=
  if line.getLast? = some '\r' then line.dropLast else line

/-- The lines among the pieces: all but the last were ended by a line feed, and the last is a line
only if it holds something. -/
def ofPieces : List (List Char) → List (List Char)
  | [] => []
  | [last] => if last = [] then [] else [last]
  | line :: rest => dropReturn line :: ofPieces rest

/-- The lines of a text. A line ends with a line feed, or a carriage return and a line feed. -/
def lines (cs : List Char) : List (List Char) := ofPieces (pieces cs)

/-- The characters with the property White_Space. -/
def isBlank (c : Char) : Bool :=
  let n := c.toNat
  (0x09 ≤ n && n ≤ 0x0d) || n == 0x20 || n == 0x85 || n == 0xa0 || n == 0x1680 ||
    (0x2000 ≤ n && n ≤ 0x200a) || n == 0x2028 || n == 0x2029 || n == 0x202f || n == 0x205f ||
    n == 0x3000

/-- The characters without the blanks at both ends. -/
def trim (cs : List Char) : List Char :=
  ((cs.dropWhile isBlank).reverse.dropWhile isBlank).reverse

end Text

end Mips
