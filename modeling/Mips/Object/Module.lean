import Mips.Object.Segment
import Mips.Object.Symbol

/-!
# Modules

A module is what assembling a source gives: the bytes of the two sections with their addresses, the
symbols, and the places left for a linker. Words are big-endian.
-/

namespace Mips

/-- An assembled module. -/
structure Module where
  textBase : Word
  dataBase : Word
  text : Bytes
  data : Bytes
  symbols : SymbolTable
  relocations : List Relocation
  deriving DecidableEq, Repr

namespace Module

/-- The bytes of a section. -/
def bytes (m : Module) : Section → Bytes
  | .text => m.text
  | .data => m.data

/-- The address of the first byte of a section. -/
def base (m : Module) : Section → Word
  | .text => m.textBase
  | .data => m.dataBase

/-- The section where `address` is looked for: data from its base on where data lies above text,
and text otherwise. -/
def sectionAt (m : Module) (address : Word) : Section :=
  if m.dataBase ≤ address ∧ m.textBase ≤ m.dataBase then .data else .text

/-- The word at `address`, if all its bytes are in one section. -/
def word? (m : Module) (address : Word) : Option Word :=
  let s := m.sectionAt address
  if m.base s ≤ address then
    let start := address.toNat - (m.base s).toNat
    match (m.bytes s)[start]?, (m.bytes s)[start + 1]?, (m.bytes s)[start + 2]?,
        (m.bytes s)[start + 3]? with
    | some a, some b, some c, some d => some (Word.ofBytes a b c d)
    | _, _, _, _ => none
  else none

end Module

end Mips
