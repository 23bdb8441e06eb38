/-!
# Revisions of the instruction set

Each revision holds every instruction of the revisions before it.
-/

namespace Mips

/-- A revision of the instruction set. -/
inductive Isa where
  | mips1
  | mips2
  | mips32
  deriving DecidableEq, Repr, Inhabited

namespace Isa

/-- Position in the order of appearance. -/
def rank : Isa → Nat
  | mips1 => 0
  | mips2 => 1
  | mips32 => 2

instance : LE Isa := ⟨fun a b => a.rank ≤ b.rank⟩

instance (a b : Isa) : Decidable (a ≤ b) := inferInstanceAs (Decidable (a.rank ≤ b.rank))

/-- The name of a revision in messages. -/
def title : Isa → String
  | mips1 => "MIPS I"
  | mips2 => "MIPS II"
  | mips32 => "MIPS32"

/-- The name of a revision in settings. -/
def key : Isa → String
  | mips1 => "mips1"
  | mips2 => "mips2"
  | mips32 => "mips32"

/-- The revision with the given name in settings. -/
def ofKey? (name : String) : Option Isa := [mips1, mips2, mips32].find? (·.key = name)

end Isa

end Mips
