/-!
# Paths

A path is text with slashes between its parts. An absolute path starts with a slash.
-/

namespace Mips

namespace Path

/-- Whether a path starts at the root. -/
def isAbsolute (path : String) : Bool := path.toList.head? == some '/'

/-- The parts between the slashes, empty ones included. -/
def parts (path : String) : List String :=
  (path.toList.foldr (fun c rest =>
    if c = '/' then [] :: rest
    else match rest with
      | [] => [[c]]
      | part :: parts => (c :: part) :: parts) [[]]).map String.ofList

/-- Whether a part goes down: an empty part and `.` stay in their folder, and `..` goes up. -/
def isName (part : String) : Bool := part ≠ "" && part ≠ "." && part ≠ ".."

/-- The last part of a path, and what stands before it with the slash; both reversed. -/
def splitLast (path : String) : List Char × List Char :=
  let cs := path.toList.reverse
  (cs.takeWhile (· ≠ '/'), cs.dropWhile (· ≠ '/'))

/-- The folder that holds the last part of a path, with the slash behind it. -/
def parent (path : String) : String := String.ofList (splitLast path).2.reverse

/-- A last part, reversed, without what follows its last dot. A dot at its start is kept with all
that follows. Where nothing but one dot would stay, both dots do: two dots name a folder and have no
ending. -/
def dropEnding (name : List Char) : List Char :=
  match name.dropWhile (· ≠ '.') with
  | '.' :: before => if before = [] then name else if before = ['.'] then ['.', '.'] else before
  | _ => name

/-- A path without the ending of its last part: `dir/prog` for `dir/prog.s`. -/
def stem (path : String) : String :=
  let (name, folder) := splitLast path
  String.ofList (dropEnding name ++ folder).reverse

end Path

end Mips
