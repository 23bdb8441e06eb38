import Mips.Machine.Word

/-!
# Registers

The machine has 32 general registers, each with a number and a conventional name. A register is
kept with eight bits, so that every byte is one; those from 32 on have no name and are shown by
their number.
-/

namespace Mips

/-- A register, by number. -/
structure Register where
  number : BitVec 8
  deriving DecidableEq, Repr, Inhabited

namespace Register

/-- The conventional names, in the order of the register numbers. -/
def names : List String :=
  ["zero", "at", "v0", "v1", "a0", "a1", "a2", "a3",
   "t0", "t1", "t2", "t3", "t4", "t5", "t6", "t7",
   "s0", "s1", "s2", "s3", "s4", "s5", "s6", "s7",
   "t8", "t9", "k0", "k1", "gp", "sp", "fp", "ra"]

/-- The decimal numbers of the named registers. -/
def numerals : List String := (List.range 32).map toString

/-- The register that reads as zero. -/
def zero : Register := ⟨0⟩

/-- The register left to the assembler as scratch. -/
def scratch : Register := ⟨1⟩

/-- The frame pointer. -/
def frame : Register := ⟨30⟩

/-- The register numbered by the lowest eight bits of `w`. -/
def ofWord (w : Word) : Register := ⟨w.setWidth 8⟩

/-- The number of a register as a word. -/
def toWord (r : Register) : Word := r.number.setWidth 32

/-- The `n`-th register. -/
def ofNat (n : Nat) : Register := ⟨BitVec.ofNat 8 n⟩

/-- The register written `$name`: a conventional name, `s8` for the frame pointer, or a number
below 32 in decimal without leading zeros. -/
def ofName? (name : String) : Option Register :=
  match names.idxOf? name with
  | some n => some (ofNat n)
  | none => if name = "s8" then some frame else (numerals.idxOf? name).map ofNat

/-- How a register is written: `$t0`, or `$40` where there is no name. -/
def text (r : Register) : String :=
  "$" ++ (names[r.number.toNat]?).getD (toString r.number.toNat)

end Register

end Mips
