import Mips.Object.SymbolFile
import Mips.Tool.FileTree
import Mips.Tool.Log

/-!
# The program

`program` is the command line tool: it loads the settings, assembles the file named by its first
argument and writes three files beside it. It works over any `Host`, the few services it needs from
the system, and any `SettingsFormat`. A `Session` is a host in itself: a file tree, a working folder,
the notes so far, and what the system refuses.
-/

namespace Mips

/-- The services of a system. -/
class Host (m : Type → Type) where
  /-- Read a file. -/
  read : String → m ReadOutcome
  /-- Write a file, which may be new. -/
  write : String → Bytes → m (Except SystemError Unit)
  /-- Make a folder and those above it. -/
  makeFolders : String → m (Except SystemError Unit)
  /-- Tell something. -/
  note : Note → m Unit

/-- Where the settings are, if there is a place for them, and how they are written. -/
structure Setup where
  settingsPath? : Option String
  format : SettingsFormat

namespace Program

variable {m : Type → Type} [Monad m] [Host m]

/-- The bytes of a text. -/
def bytesOf (text : String) : Bytes := text.toUTF8.data

/-- What a new settings file holds, and whether that is all of it. -/
def defaultFile (format : SettingsFormat) : Bytes × Except SettingsError Unit :=
  match format.write {} with
  | .ok text => (bytesOf text, .ok ())
  | .error reason => (#[], .error (.unwritable reason))

/-- Write the default settings to `path`. The file is made first: it stays empty where the settings
cannot be written as a text. -/
def storeSettings (format : SettingsFormat) (path : String) : m (Except SettingsError Unit) := do
  match ← Host.makeFolders (Path.parent path) with
  | .error cause => return .error (.system (.system cause))
  | .ok () =>
    match ← Host.write path (defaultFile format).1 with
    | .error cause => return .error (.system (.system cause))
    | .ok () => return (defaultFile format).2

/-- The settings in a text, or why they cannot be used. -/
def settingsOfBytes (format : SettingsFormat) (bytes : Bytes) : Except SettingsError Settings :=
  match textOfBytes bytes with
  | .error cause => .error (.system cause)
  | .ok text => (format.read text).mapError .malformed

/-- Load the settings from `path`. A missing file is made, and one that cannot be used is ignored;
both give the default settings. -/
def loadFile (format : SettingsFormat) (path : String) : m Settings := do
  match ← Host.read path with
  | .refused cause =>
    if cause.code = SystemError.notFound.code then
      match ← storeSettings format path with
      | .ok () => Host.note (.settingsCreated path)
      | .error cause => Host.note (.settingsNotCreated cause)
    else Host.note (.settingsIgnored (.system (.system cause)))
    return {}
  | .broken cause =>
    Host.note (.settingsIgnored (.system (.system cause)))
    return {}
  | .contents bytes =>
    match settingsOfBytes format bytes with
    | .ok settings => return settings
    | .error cause =>
      Host.note (.settingsIgnored cause)
      return {}

/-- Load the settings, which are the default ones where there is no place for a file. -/
def loadSettings (setup : Setup) : m Settings :=
  match setup.settingsPath? with
  | some path => loadFile setup.format path
  | none => do
    Host.note (.settingsIgnored .noFolder)
    return {}

/-- The files that a module is written to: text, data and symbols. -/
def outputs (module : Module) (stem : String) : List (String × Bytes) :=
  [(stem ++ ".text", module.text), (stem ++ ".data", module.data),
   (stem ++ ".sym.toml", bytesOf module.symbolFile)]

/-- Write files in turn, up to the first that cannot be written. -/
def writeAll : List (String × Bytes) → m (Except SystemError Unit)
  | [] => return .ok ()
  | (path, bytes) :: rest => do
    match ← Host.write path bytes with
    | .error cause => return .error cause
    | .ok () => writeAll rest

/-- Write a module beside its source, and tell what was written. -/
def save (module : Module) (path : String) : m UInt32 := do
  let files := outputs module (Path.stem path)
  match ← writeAll files with
  | .error cause =>
    Host.note (.notWritten cause)
    return 1
  | .ok () =>
    files.forM fun (path, _) => Host.note (.wrote path)
    return 0

/-- Report an assembly and save its module if there are no errors. -/
def finish (path : String) (a : Assembly) : m UInt32 := do
  a.trace.forM fun event => Host.note (.traced event)
  a.diagnostics.forM fun d => Host.note (.diagnosed path d)
  if a.hasErrors then return 1 else save a.module path

/-- Assemble the file at `path` and write the outputs. -/
def assembleFile (settings : Settings) (path : String) : m UInt32 := do
  match ← Host.read path with
  | .refused cause =>
    Host.note (.notOpened path cause)
    return 1
  | .broken cause =>
    Host.note (.failed path (.unreadable (.system cause)))
    return 1
  | .contents bytes =>
    match assembleBytes bytes settings with
    | .error cause =>
      Host.note (.failed path cause)
      return 1
    | .ok a => finish path a

end Program

/-- The tool: its arguments give an exit code. Only the first argument counts. -/
def program {m : Type → Type} [Monad m] [Host m] (setup : Setup) :
    List String → m UInt32
  | [] => do
    Host.note .usage
    return 2
  | path :: _ => do
    let settings ← Program.loadSettings setup
    Program.assembleFile settings path

/-! ### Sessions -/

/-- What becomes of a call to the system. -/
inductive Fate where
  /-- It does what the files allow. -/
  | granted
  /-- The system does not allow it. That is no way to say that nothing was found. -/
  | refused (cause : SystemError) (h : cause.code ≠ SystemError.notFound.code)
  /-- It stops after some of its bytes or folders. -/
  | stopped (done : Nat) (cause : SystemError)
  deriving DecidableEq, Repr

/-- A system in itself. -/
structure Session where
  tree : FileTree
  /-- The working folder. -/
  working : Location
  /-- What becomes of the next calls. Later ones are granted. -/
  fates : List Fate := []
  /-- The notes so far, the last one first. -/
  notes : List Note := []
  deriving DecidableEq, Repr

namespace Session

/-- The fate of the next call. -/
def fate (s : Session) : Fate := s.fates.headD .granted

/-- The session behind a call that leaves `tree`. -/
def after (s : Session) (tree : FileTree) : Session := { s with tree, fates := s.fates.tail }

/-- Read a file. -/
def readFile (s : Session) (path : String) : ReadOutcome :=
  match s.fate, s.tree.read s.working path with
  | .refused cause _, _ => .refused cause
  | .stopped _ cause, .contents _ => .broken cause
  | _, outcome => outcome

/-- Write a file, or the part of it that the system lets through. -/
def writeFile (s : Session) (path : String) (bytes : Bytes) : Except SystemError Unit × FileTree :=
  match s.fate with
  | .granted =>
    match s.tree.write s.working path bytes with
    | .ok tree => (.ok (), tree)
    | .error cause => (.error cause, s.tree)
  | .refused cause _ => (.error cause, s.tree)
  | .stopped done cause =>
    match s.tree.write s.working path (bytes.take done) with
    | .ok tree => (.error cause, tree)
    | .error cause => (.error cause, s.tree)

/-- Make a folder and those above it, or those that the system lets through. -/
def makeFolders (s : Session) (path : String) : Except SystemError Unit × FileTree :=
  let l := FileTree.start s.working path
  match s.fate with
  | .granted => s.tree.makeFolders l [] (Path.parts path)
  | .refused cause _ => (.error cause, s.tree)
  | .stopped done cause => (.error cause, (s.tree.makeFolders l [] ((Path.parts path).take done)).2)

instance : Host (StateM Session) where
  read path s := (s.readFile path, s.after s.tree)
  write path bytes s := ((s.writeFile path bytes).1, s.after (s.writeFile path bytes).2)
  makeFolders path s := ((s.makeFolders path).1, s.after (s.makeFolders path).2)
  note n s := ((), { s with notes := n :: s.notes })

/-- Run the tool. -/
def run (s : Session) (setup : Setup) (args : List String) : UInt32 × Session :=
  Id.run ((program setup args : StateM Session UInt32).run s)

/-- The notes that a reader of the given level sees, in order. -/
def shown (s : Session) (level : Level) : List Note :=
  s.notes.reverse.filter (·.level.isShown level)

end Session

end Mips
