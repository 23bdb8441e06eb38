import Mips.Tool.PlainText
import Mips.Tool.Program
import Mips.Tool.SettingsFile

/-!
# Command line

`mipsasm` on the real system. Notes go to standard error; `RUST_LOG` names the level to show. The
settings are in `config.toml` in the user's folder for settings.
-/

namespace Mips

namespace Terminal

/-- The error of the system behind an error of a file operation. -/
def systemError : IO.Error → SystemError
  | .noFileOrDirectory _ code text => ⟨code.toNat, text⟩
  | .inappropriateType _ code text => ⟨code.toNat, text⟩
  | .permissionDenied _ code text => ⟨code.toNat, text⟩
  | .alreadyExists _ code text => ⟨code.toNat, text⟩
  | .resourceExhausted _ code text => ⟨code.toNat, text⟩
  | .invalidArgument _ code text => ⟨code.toNat, text⟩
  | .otherError code text => ⟨code.toNat, text⟩
  | e => ⟨5, toString e⟩

/-- Read a file. -/
def readFile (path : String) : IO ReadOutcome := do
  let handle ← try Except.ok <$> IO.FS.Handle.mk path .read catch e => pure (.error e)
  match handle with
  | .error e => return .refused (systemError e)
  | .ok handle =>
    try return .contents (← handle.readBinToEnd).data
    catch e => return .broken (systemError e)

/-- Do something that the system may refuse. -/
def attempt (action : IO Unit) : IO (Except SystemError Unit) := do
  try
    action
    return .ok ()
  catch e => return .error (systemError e)

/-- The system, with the level of notes to show. -/
instance : Host (ReaderT (Option Level) IO) where
  read path := readFile path
  write path bytes := attempt (IO.FS.writeBinFile path ⟨bytes⟩)
  makeFolders path := attempt (IO.FS.createDirAll path)
  note n := do
    if (← read).any n.level.isShown then
      IO.eprintln s!"[{n.level.name} mipsasm] {PlainText.ofText n.message}"

/-- Where the settings are, for a user who has a folder. -/
def settingsPath? : IO (Option String) := do
  match ← IO.getEnv "HOME" with
  | none | some "" => return none
  | some home =>
    match ← IO.getEnv "XDG_CONFIG_HOME" with
    | some folder =>
      return some ((if Path.isAbsolute folder then folder else home ++ "/.config") ++ "/config.toml")
    | none => return some (home ++ "/.config/config.toml")

/-- The level of notes to show, if any are. A value that is no level stands for errors only. -/
def level? : IO (Option Level) := do
  match (← IO.getEnv "RUST_LOG").map String.toLower with
  | none => return some .warn
  | some "off" => return none
  | some key => return some ((Level.ofKey? key).getD .error)

end Terminal

end Mips

/-- Assemble the file named by the first argument. -/
def main (args : List String) : IO UInt32 := do
  let setup := { settingsPath? := ← Mips.Terminal.settingsPath?, format := Mips.SettingsFile.format }
  let run : ReaderT (Option Mips.Level) IO UInt32 := Mips.program setup args
  run.run (← Mips.Terminal.level?)
