import Mips.Machine.Isa
import Mips.Machine.Pseudo

/-!
# Mnemonics

One table holds every instruction that can be written: its name, what it is encoded or expanded to,
the operands it takes in the order they are written, and the first revision that has it.
-/

namespace Mips

/-- What may stand in the place of an operand. -/
inductive OperandKind where
  /-- The destination register. -/
  | rd
  /-- The source register. -/
  | rs
  /-- The target register. -/
  | rt
  /-- A shift amount of 5 bits. -/
  | shift
  /-- A value of 16 bits, signed or not. -/
  | immediate
  /-- A value of 32 bits, split over two instructions. -/
  | full
  /-- The target of a branch: a label, or a number of words. -/
  | offset
  /-- The target of a jump: a label, or a field of 26 bits. -/
  | target
  /-- An address in memory, written `offset(register)`. -/
  | memory
  deriving DecidableEq, Repr

/-- What a mnemonic stands for. -/
inductive Meaning where
  | real (format : Format)
  | pseudo (expansion : Pseudo)
  deriving DecidableEq, Repr

/-- An instruction that can be written. -/
structure Mnemonic where
  name : String
  meaning : Meaning
  operands : List OperandKind
  since : Isa
  deriving DecidableEq, Repr

namespace Mnemonic

/-- How many words the instruction takes. -/
def length (m : Mnemonic) : Nat :=
  match m.meaning with
  | .real _ => 1
  | .pseudo p => p.length

/-- How many bytes the instruction takes. -/
def size (m : Mnemonic) : Nat := 4 * m.length

/-- The word, counted from the first, whose field holds the operand that is an expression. -/
def fieldIndex (m : Mnemonic) : Nat :=
  match m.meaning with
  | .real _ => 0
  | .pseudo p => p.branchIndex?.getD 0

/-- The words of the instruction for the given operands. -/
def words (m : Mnemonic) (o : Operands) : List Instruction :=
  match m.meaning with
  | .real f => [.encode f o]
  | .pseudo p => p.expand o

/-! ### The table -/

/-- A real instruction of the first revision. -/
def real (name : String) (format : Format) (operands : List OperandKind) : Mnemonic :=
  ⟨name, .real format, operands, .mips1⟩

/-- An instruction that came with a later revision. -/
def added (since : Isa) (m : Mnemonic) : Mnemonic := { m with since := since }

/-- A pseudo-instruction; all of them are in the first revision. -/
def pseudo (name : String) (expansion : Pseudo) (operands : List OperandKind) : Mnemonic :=
  ⟨name, .pseudo expansion, operands, .mips1⟩

/-- Every instruction. `nop` is the word zero; it shares its code with `sll`. -/
def table : List Mnemonic :=
  [real "nop" (.register 0x00) [],
   real "sll" (.register 0x00) [.rd, .rt, .shift],
   real "srl" (.register 0x02) [.rd, .rt, .shift],
   real "sra" (.register 0x03) [.rd, .rt, .shift],
   real "sllv" (.register 0x04) [.rd, .rt, .rs],
   real "srlv" (.register 0x06) [.rd, .rt, .rs],
   real "srav" (.register 0x07) [.rd, .rt, .rs],
   real "jr" (.register 0x08) [.rs],
   real "jalr" (.register 0x09) [.rd, .rs],
   real "syscall" (.register 0x0c) [],
   real "break" (.register 0x0d) [],
   real "mfhi" (.register 0x10) [.rd],
   real "mthi" (.register 0x11) [.rs],
   real "mflo" (.register 0x12) [.rd],
   real "mtlo" (.register 0x13) [.rs],
   real "mult" (.register 0x18) [.rs, .rt],
   real "multu" (.register 0x19) [.rs, .rt],
   real "div" (.register 0x1a) [.rs, .rt],
   real "divu" (.register 0x1b) [.rs, .rt],
   real "add" (.register 0x20) [.rd, .rs, .rt],
   real "addu" .addu [.rd, .rs, .rt],
   real "sub" .sub [.rd, .rs, .rt],
   real "subu" (.register 0x23) [.rd, .rs, .rt],
   real "and" (.register 0x24) [.rd, .rs, .rt],
   real "or" (.register 0x25) [.rd, .rs, .rt],
   real "xor" (.register 0x26) [.rd, .rs, .rt],
   real "nor" .nor [.rd, .rs, .rt],
   real "slt" .slt [.rd, .rs, .rt],
   real "sltu" (.register 0x2b) [.rd, .rs, .rt],
   real "bltz" (.branch 0x00) [.rs, .offset],
   real "bgez" .bgez [.rs, .offset],
   real "bltzal" (.branch 0x10) [.rs, .offset],
   real "bgezal" (.branch 0x11) [.rs, .offset],
   real "j" (.jump 0x02) [.target],
   real "jal" (.jump 0x03) [.target],
   real "beq" .beq [.rs, .rt, .offset],
   real "bne" .bne [.rs, .rt, .offset],
   real "blez" (.immediate 0x06) [.rs, .offset],
   real "bgtz" (.immediate 0x07) [.rs, .offset],
   real "addi" (.immediate 0x08) [.rt, .rs, .immediate],
   real "addiu" (.immediate 0x09) [.rt, .rs, .immediate],
   real "slti" (.immediate 0x0a) [.rt, .rs, .immediate],
   real "sltiu" (.immediate 0x0b) [.rt, .rs, .immediate],
   real "andi" (.immediate 0x0c) [.rt, .rs, .immediate],
   real "ori" .ori [.rt, .rs, .immediate],
   real "xori" .xori [.rt, .rs, .immediate],
   real "lui" .lui [.rt, .immediate],
   real "lb" (.immediate 0x20) [.rt, .memory],
   real "lh" (.immediate 0x21) [.rt, .memory],
   real "lwl" (.immediate 0x22) [.rt, .memory],
   real "lw" (.immediate 0x23) [.rt, .memory],
   real "lbu" (.immediate 0x24) [.rt, .memory],
   real "lhu" (.immediate 0x25) [.rt, .memory],
   real "lwr" (.immediate 0x26) [.rt, .memory],
   real "sb" (.immediate 0x28) [.rt, .memory],
   real "sh" (.immediate 0x29) [.rt, .memory],
   real "swl" (.immediate 0x2a) [.rt, .memory],
   real "sw" (.immediate 0x2b) [.rt, .memory],
   real "swr" (.immediate 0x2e) [.rt, .memory],
   added .mips2 (real "beql" (.immediate 0x14) [.rs, .rt, .offset]),
   added .mips2 (real "bnel" (.immediate 0x15) [.rs, .rt, .offset]),
   added .mips2 (real "blezl" (.immediate 0x16) [.rs, .offset]),
   added .mips2 (real "bgtzl" (.immediate 0x17) [.rs, .offset]),
   added .mips2 (real "tge" (.register 0x30) [.rs, .rt]),
   added .mips2 (real "tlt" (.register 0x32) [.rs, .rt]),
   added .mips2 (real "teq" (.register 0x34) [.rs, .rt]),
   added .mips2 (real "tne" (.register 0x36) [.rs, .rt]),
   added .mips32 (real "movz" (.register 0x0a) [.rd, .rs, .rt]),
   added .mips32 (real "movn" (.register 0x0b) [.rd, .rs, .rt]),
   pseudo "li" .li [.rt, .full],
   pseudo "la" .la [.rt, .full],
   pseudo "move" .move [.rt, .rs],
   pseudo "abs" .abs [.rt, .rs],
   pseudo "blt" .blt [.rs, .rt, .offset],
   pseudo "bgt" .bgt [.rs, .rt, .offset],
   pseudo "sge" .sge [.rd, .rs, .rt],
   pseudo "b" .b [.offset],
   pseudo "beqz" .beqz [.rs, .offset],
   pseudo "bnez" .bnez [.rs, .offset],
   pseudo "not" .not [.rd, .rs],
   pseudo "neg" .neg [.rd, .rs]]

/-- The instruction with the given name; case matters. -/
def ofName? (name : String) : Option Mnemonic := table.find? (·.name = name)

end Mnemonic

end Mips
