import Mips.Object.Segment
import Mips.Source.ReadError
import Mips.Tool.Path

/-!
# File trees

A file tree holds files, folders and links by location, a list of names from the root down. A file
has a number, and may be at several locations. A path is followed part by part from the root or from
the working folder: each part that is followed further has to be a folder, also where the next part
is empty, `.` or `..`, and a link is replaced by the path it stands for.
-/

namespace Mips

/-- The names from the root down. -/
abbrev Location := List String

/-- What is at a location. -/
inductive Entry where
  /-- The file with the given number. -/
  | file (number : Nat)
  | folder
  /-- A link, which stands for a path seen from the folder it is in. -/
  | link (target : String)
  deriving DecidableEq, Repr

/-- Files, folders and links by location, and what the files hold by their numbers. The root is a
folder and has no entry. A file that holds nothing needs no contents. -/
structure FileTree where
  entries : List (Location × Entry) := []
  stored : List (Nat × Bytes) := []
  deriving DecidableEq, Repr

/-- What comes of reading a file. -/
inductive ReadOutcome where
  /-- The file cannot be opened. -/
  | refused (cause : SystemError)
  /-- The file was opened, and reading failed. -/
  | broken (cause : SystemError)
  | contents (bytes : Bytes)
  deriving DecidableEq, Repr

namespace FileTree

/-- The list with `b` for `a`, in place of what was there. -/
def assign {α β : Type} [DecidableEq α] (a : α) (b : β) : List (α × β) → List (α × β)
  | [] => [(a, b)]
  | (a', b') :: rest => if a = a' then (a, b) :: rest else (a', b') :: assign a b rest

/-- What is at a location. -/
def entry? (t : FileTree) (l : Location) : Option Entry :=
  if l = [] then some .folder else t.entries.lookup l

/-- What the file with the given number holds. -/
def contents (t : FileTree) (number : Nat) : Bytes := (t.stored.lookup number).getD #[]

/-- Put `e` at `l`. -/
def put (t : FileTree) (l : Location) (e : Entry) : FileTree :=
  { t with entries := assign l e t.entries }

/-- Store `bytes` in the file with the given number. -/
def store (t : FileTree) (number : Nat) (bytes : Bytes) : FileTree :=
  { t with stored := assign number bytes t.stored }

/-- The least number above those of the given entries. -/
def above : List (Location × Entry) → Nat
  | [] => 0
  | (_, .file number) :: rest => max (number + 1) (above rest)
  | (_, _) :: rest => above rest

/-- A number that no file has. -/
def unused (t : FileTree) : Nat := above t.entries

/-- Follow the parts of a path. Nothing needs to be at its end. Behind a link, `jump` follows its
parts and those that are left. -/
def walk (t : FileTree) (jump : Location → List String → Except SystemError Location) :
    Location → List String → Except SystemError Location
  | l, [] => .ok l
  | l, part :: parts =>
    match t.entry? l with
    | none => .error .notFound
    | some .folder =>
      if Path.isName part then
        match t.entry? (l ++ [part]) with
        | some (.link target) =>
          jump (if Path.isAbsolute target then [] else l) (Path.parts target ++ parts)
        | _ => t.walk jump (l ++ [part]) parts
      else t.walk jump (if part = ".." then l.dropLast else l) parts
    | _ => .error .notFolder

/-- Follow the parts of a path, with no more than the given number of links. -/
def follow (t : FileTree) : (links : Nat) → Location → List String → Except SystemError Location
  | 0 => t.walk fun _ _ => .error .manyLinks
  | links + 1 => t.walk (t.follow links)

/-- The number of links that a path may lead through. -/
def maxLinks : Nat := 40

/-- Where a path starts, seen from the working folder. -/
def start (working : Location) (path : String) : Location :=
  if Path.isAbsolute path then [] else working

/-- The location that a path names, seen from the working folder. -/
def locate (t : FileTree) (working : Location) (path : String) : Except SystemError Location :=
  if path = "" then .error .notFound
  else t.follow maxLinks (start working path) (Path.parts path)

/-- Read a file. A folder can be opened and not read. -/
def read (t : FileTree) (working : Location) (path : String) : ReadOutcome :=
  match t.locate working path with
  | .error cause => .refused cause
  | .ok l =>
    match t.entry? l with
    | none => .refused .notFound
    | some (.file number) => .contents (t.contents number)
    | some _ => .broken .isFolder

/-- Write a file, which may be new. -/
def write (t : FileTree) (working : Location) (path : String) (bytes : Bytes) :
    Except SystemError FileTree :=
  match t.locate working path with
  | .error cause => .error cause
  | .ok l =>
    match t.entry? l with
    | none => .ok ((t.put l (.file t.unused)).store t.unused bytes)
    | some (.file number) => .ok (t.store number bytes)
    | some _ => .error .isFolder

/-- Make the folder that the parts `init ++ [last]` lead to from `l`, unless it is there. -/
def makeFolder (t : FileTree) (l : Location) (init : List String) (last : String) :
    Except SystemError FileTree :=
  match (t.follow maxLinks l (init ++ [last])).map t.entry? with
  | .ok (some .folder) => .ok t
  | _ =>
    match t.follow maxLinks l init with
    | .error cause => .error cause
    | .ok l' =>
      if t.entry? l' = some .folder ∧ Path.isName last ∧ t.entry? (l' ++ [last]) = none then
        .ok (t.put (l' ++ [last]) .folder)
      else .error .occupied

/-- Make the folders that are missing on the way from `l`, the parts `init` being made already. What
was made stays where one cannot be made. -/
def makeFolders (t : FileTree) (l : Location) (init : List String) :
    List String → Except SystemError Unit × FileTree
  | [] => (.ok (), t)
  | part :: parts =>
    match t.makeFolder l init part with
    | .error cause => (.error cause, t)
    | .ok t' => t'.makeFolders l (init ++ [part]) parts

end FileTree

end Mips
