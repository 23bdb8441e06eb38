import Mips.Machine.Isa
import Mips.Machine.Word

/-!
# Settings

What a run of the assembler depends on besides the source.
-/

namespace Mips

/-- The settings of a run. -/
structure Settings where
  /-- The address of the first byte of the text section. -/
  textBase : Word := 0x00400000
  /-- The address of the first byte of the data section. -/
  dataBase : Word := 0x10010000
  /-- Instructions of later revisions are refused. -/
  isa : Isa := .mips32
  deriving DecidableEq, Repr, Inhabited

/-- How settings are read from a text and written to one. Either may fail, for a reason in words. -/
structure SettingsFormat where
  read : String → Except String Settings
  write : Settings → Except String String

end Mips
