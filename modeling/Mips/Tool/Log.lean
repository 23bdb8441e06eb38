import Mips.Assembly

/-!
# Log

What the tool tells while it runs. A reader chooses a level and sees the notes of that level and the
graver ones.
-/

namespace Mips

/-- The level of a note, the gravest first. -/
inductive Level where
  | error
  | warn
  | info
  | debug
  | trace
  deriving DecidableEq, Repr

namespace Level

/-- The name of a level. -/
def name : Level → String
  | error => "ERROR"
  | warn => "WARN"
  | info => "INFO"
  | debug => "DEBUG"
  | trace => "TRACE"

/-- Position from the gravest on. -/
def rank : Level → Nat
  | error => 0
  | warn => 1
  | info => 2
  | debug => 3
  | trace => 4

/-- The level with the given name in lower case. -/
def ofKey? : String → Option Level
  | "error" => some error
  | "warn" => some warn
  | "info" => some info
  | "debug" => some debug
  | "trace" => some trace
  | _ => none

/-- Whether a reader who chose `chosen` sees a note of level `l`. -/
def isShown (l chosen : Level) : Bool := l.rank ≤ chosen.rank

end Level

/-- Why a settings file is not used or not made. -/
inductive SettingsError where
  /-- There is no folder for settings. -/
  | noFolder
  | system (cause : ReadError)
  /-- The settings cannot be written as a text. -/
  | unwritable (reason : String)
  /-- The text gives no settings. -/
  | malformed (reason : String)
  deriving DecidableEq, Repr

namespace SettingsError

/-- The text of a settings error. -/
def message : SettingsError → String
  | noFolder => "Failed to find config directory"
  | system cause => "Failed to load config file: " ++ cause.message
  | unwritable reason => "Failed to serialize config file: " ++ reason
  | malformed reason => "Failed to deserialize config file: " ++ reason

end SettingsError

/-- Something that the tool tells. -/
inductive Note where
  | usage
  | settingsCreated (path : String)
  | settingsNotCreated (cause : SettingsError)
  | settingsIgnored (cause : SettingsError)
  | notOpened (path : String) (cause : SystemError)
  | failed (path : String) (cause : Failure)
  | traced (event : TraceEvent)
  | diagnosed (path : String) (diagnostic : Diagnostic)
  | wrote (path : String)
  | notWritten (cause : SystemError)
  deriving DecidableEq, Repr

namespace Note

/-- The level of a note. -/
def level : Note → Level
  | usage | notOpened _ _ | failed _ _ | notWritten _ => .error
  | settingsNotCreated _ | settingsIgnored _ => .warn
  | settingsCreated _ | wrote _ => .info
  | traced (.wrote _ _) => .trace
  | traced _ => .debug
  | diagnosed _ d =>
    match d.problem.severity with
    | .warning => .warn
    | .error => .error

/-- What a note tells. -/
def message : Note → String
  | usage => "usage: mipsasm <source file>"
  | settingsCreated path => "created config file at " ++ path
  | settingsNotCreated cause => "failed to create config file: " ++ cause.message
  | settingsIgnored cause => cause.message ++ ", using the default config"
  | notOpened path cause => "failed to open " ++ path ++ ": " ++ cause.message
  | failed path cause => path ++ ": " ++ cause.message
  | traced event => event.message
  | diagnosed path diagnostic => path ++ ":" ++ diagnostic.text
  | wrote path => "wrote " ++ path
  | notWritten cause => "Failed to write output file: " ++ cause.message

end Note

end Mips
