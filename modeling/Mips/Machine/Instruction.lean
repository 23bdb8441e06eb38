import Mips.Machine.Register

/-!
# Encoded instructions

An instruction is one word, laid out in one of three ways:

    register    op:6 = 0   rs:5   rt:5   rd:5   shift:5   funct:6
    immediate   op:6       rs:5   rt:5   imm:16
    jump        op:6       target:26

Branches that compare one register with zero use the immediate layout with operation 1 and keep
their condition in the `rt` field.
-/

namespace Mips

/-- The layout of an instruction, with the code that tells it from others of that layout. -/
inductive Format where
  /-- Operation 0, with the function in the lowest six bits. -/
  | register (funct : Word)
  /-- The immediate layout with the given operation. -/
  | immediate (op : Word)
  /-- The jump layout with the given operation. -/
  | jump (op : Word)
  /-- Operation 1, with the condition in the `rt` field. -/
  | branch (condition : Word)
  deriving DecidableEq, Repr

/-- What the fields of an instruction are filled with. A field that an instruction does not use is
left zero. -/
structure Operands where
  rd : Register := .zero
  rs : Register := .zero
  rt : Register := .zero
  shift : Word := 0
  /-- Immediate value, branch offset, memory offset or jump target. -/
  imm : Word := 0
  deriving DecidableEq, Repr, Inhabited

/-- An encoded instruction. -/
structure Instruction where
  word : Word
  deriving DecidableEq, Repr, Inhabited

namespace Instruction

/-! ### Fields -/

/-- The operation. -/
def op (i : Instruction) : Word := i.word.bits 26 31

/-- The function of the register layout. -/
def funct (i : Instruction) : Word := i.word.bits 0 5

/-- The immediate value. -/
def imm (i : Instruction) : Word := i.word.bits 0 15

/-- The immediate value read as a two's complement number. -/
def signedImm (i : Instruction) : Int := (i.imm.setWidth 16).toInt

/-- The target of a jump. -/
def target (i : Instruction) : Word := i.word.bits 0 25

/-- The shift amount. -/
def shift (i : Instruction) : Word := i.word.bits 6 10

/-- The destination register. -/
def rd (i : Instruction) : Register := .ofWord (i.word.bits 11 15)

/-- The target register. -/
def rt (i : Instruction) : Register := .ofWord (i.word.bits 16 20)

/-- The source register. -/
def rs (i : Instruction) : Register := .ofWord (i.word.bits 21 25)

/-- The bytes of an instruction in memory. -/
def bytes (i : Instruction) : List UInt8 := i.word.bytes

/-! ### Encoding -/

/-- The instruction with the given layout and fields. A value wider than its field is cut. -/
def encode : Format → Operands → Instruction
  | .register funct, o =>
    ⟨((((0 : Word).setBits 0 5 funct).setBits 11 15 o.rd.toWord).setBits 21 25 o.rs.toWord
      |>.setBits 16 20 o.rt.toWord).setBits 6 10 o.shift⟩
  | .immediate op, o =>
    ⟨(((0 : Word).setBits 26 31 op).setBits 21 25 o.rs.toWord |>.setBits 16 20 o.rt.toWord)
      |>.setBits 0 15 o.imm⟩
  | .jump op, o => ⟨((0 : Word).setBits 26 31 op).setBits 0 25 o.imm⟩
  | .branch condition, o =>
    ⟨(((0 : Word).setBits 26 31 1).setBits 16 20 condition |>.setBits 21 25 o.rs.toWord)
      |>.setBits 0 15 o.imm⟩

end Instruction

/-! ### Codes used by expansions -/

namespace Format

def addu : Format := .register 0x21
def sub : Format := .register 0x22
def nor : Format := .register 0x27
def slt : Format := .register 0x2a
def bgez : Format := .branch 0x01
def beq : Format := .immediate 0x04
def bne : Format := .immediate 0x05
def ori : Format := .immediate 0x0d
def xori : Format := .immediate 0x0e
def lui : Format := .immediate 0x0f

end Format

end Mips
