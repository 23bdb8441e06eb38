/-!
# Reading from the system

What the operating system answers when it refuses to open, read or write a file, and what can go
wrong when the text of a file is wanted.
-/

namespace Mips

/-- An error of the operating system, with its number. -/
structure SystemError where
  code : Nat
  text : String
  deriving DecidableEq, Repr

namespace SystemError

def notFound : SystemError := ⟨2, "No such file or directory"⟩
def occupied : SystemError := ⟨17, "File exists"⟩
def notFolder : SystemError := ⟨20, "Not a directory"⟩
def isFolder : SystemError := ⟨21, "Is a directory"⟩
def manyLinks : SystemError := ⟨40, "Too many levels of symbolic links"⟩

/-- The text of a system error. -/
def message (e : SystemError) : String := s!"{e.text} (os error {e.code})"

end SystemError

/-- Why the text of a file cannot be had. -/
inductive ReadError where
  | system (cause : SystemError)
  /-- The bytes are no UTF-8 text. -/
  | notText
  deriving DecidableEq, Repr

namespace ReadError

/-- The text of a read error. -/
def message : ReadError → String
  | system cause => cause.message
  | notText => "stream did not contain valid UTF-8"

end ReadError

/-- The text that bytes encode. -/
def textOfBytes (bytes : Array UInt8) : Except ReadError String :=
  match String.fromUTF8? ⟨bytes⟩ with
  | some text => .ok text
  | none => .error .notText

end Mips
