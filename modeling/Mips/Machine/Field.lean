import Mips.Machine.Word

/-!
# Fields

A number in an operand is cut to the width of the field it goes to. Some fields hold numbers of
either sign, and then a value is whole in the field if either reading of it is.
-/

namespace Mips

/-- A field that a number goes to. -/
structure Field where
  /-- What the field is called in messages. -/
  title : String
  width : Nat
  /-- Whether the field also holds negative numbers. -/
  signed : Bool
  deriving DecidableEq, Repr

namespace Field

def shift : Field := ⟨"shift amount", 5, false⟩
def immediate : Field := ⟨"immediate", 16, true⟩
def offset : Field := ⟨"branch offset", 16, true⟩
def target : Field := ⟨"jump address", 26, false⟩

/-- Whether the field holds all of `value`. -/
def holds (f : Field) (value : Word) : Bool :=
  if f.signed then value.fits f.width else value.fitsUnsigned f.width

/-- What the field keeps of `value`. -/
def cut (f : Field) (value : Word) : Word := value.low f.width

end Field

end Mips
