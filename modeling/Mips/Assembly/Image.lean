import Mips.Assembly.Directive
import Mips.Object.Module
import Mips.Settings

/-!
# Images

An image is a module while it is built: its two segments, the section that lines go to, and the
symbols so far. Both passes over a source work on it.
-/

namespace Mips

/-- A module while it is built. -/
structure Image where
  text : Segment
  data : Segment
  /-- The section that lines go to. -/
  active : Section
  symbols : SymbolTable
  deriving DecidableEq, Repr

namespace Image

/-- The image without any line. -/
def start (s : Settings) : Image :=
  { text := { base := s.textBase }, data := { base := s.dataBase }, active := .text
    symbols := .empty }

/-- The segment of a section. -/
def segment (image : Image) : Section → Segment
  | .text => image.text
  | .data => image.data

/-- The segment that lines go to. -/
def current (image : Image) : Segment := image.segment image.active

/-- Apply `f` to the segment that lines go to. -/
def onCurrent : Image → (Segment → Segment) → Image
  | ⟨text, data, .text, symbols⟩, f => ⟨f text, data, .text, symbols⟩
  | ⟨text, data, .data, symbols⟩, f => ⟨text, f data, .data, symbols⟩

/-- The address of the next byte. -/
def address (image : Image) : Word := image.current.address

/-- How many bytes a directive adds. -/
def sizeOf (image : Image) : Directive → Nat
  | .align boundary => image.current.padding boundary
  | .reserve size => size
  | .data bytes => bytes.length
  | .choose _ | .global _ => 0

/-- Do what a directive says. -/
def execute (image : Image) : Directive → Image
  | .choose place => { image with active := place }
  | .align boundary => image.onCurrent (·.align boundary)
  | .reserve size => image.onCurrent (·.skip size)
  | .data bytes => image.onCurrent (·.write bytes)
  | .global name => { image with symbols := image.symbols.markGlobal name }

/-- Go back to the first byte of both sections. -/
def rewind (image : Image) : Image :=
  { image with text := image.text.rewind, data := image.data.rewind, active := .text }

/-- The finished module. -/
def toModule (image : Image) (relocations : List Relocation) : Module :=
  { textBase := image.text.base, dataBase := image.data.base
    text := image.text.bytes, data := image.data.bytes
    symbols := image.symbols, relocations }

end Image

end Mips
