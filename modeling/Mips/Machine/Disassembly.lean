import Mips.Machine.Instruction

/-!
# Disassembly

The text of an encoded instruction: its name, then its operands in the order they are written in
source. Numbers are decimal and signed, bit patterns and jump targets hexadecimal. The operation
tells what is shown, together with the function of the register layout or the condition of a branch
that compares with zero. A word with any other code is `illegal`.
-/

namespace Mips

/-- What is shown for an operand. -/
inductive Shown where
  | rd
  | rs
  | rt
  | shift
  /-- The immediate value as a number. -/
  | number
  /-- The immediate value as a pattern of bits. -/
  | bits
  | target
  /-- The immediate value as a number, with the source register in parentheses. -/
  | memory
  deriving DecidableEq, Repr

/-- The name and the operands that are shown for an instruction. -/
structure Display where
  name : String
  operands : List Shown
  deriving DecidableEq, Repr

namespace Display

/-- The register layout, by its function. -/
def ofFunct? : Word → Option Display
  | 0x00 => some ⟨"sll", [.rd, .rt, .shift]⟩
  | 0x02 => some ⟨"srl", [.rd, .rt, .shift]⟩
  | 0x03 => some ⟨"sra", [.rd, .rt, .shift]⟩
  | 0x04 => some ⟨"sllv", [.rd, .rt, .rs]⟩
  | 0x06 => some ⟨"srlv", [.rd, .rt, .rs]⟩
  | 0x07 => some ⟨"srav", [.rd, .rt, .rs]⟩
  | 0x08 => some ⟨"jr", [.rs]⟩
  | 0x09 => some ⟨"jalr", [.rd, .rs]⟩
  | 0x0a => some ⟨"movz", [.rd, .rs, .rt]⟩
  | 0x0b => some ⟨"movn", [.rd, .rs, .rt]⟩
  | 0x0c => some ⟨"syscall", []⟩
  | 0x0d => some ⟨"break", []⟩
  | 0x10 => some ⟨"mfhi", [.rd]⟩
  | 0x11 => some ⟨"mthi", [.rs]⟩
  | 0x12 => some ⟨"mflo", [.rd]⟩
  | 0x13 => some ⟨"mtlo", [.rs]⟩
  | 0x18 => some ⟨"mult", [.rs, .rt]⟩
  | 0x19 => some ⟨"multu", [.rs, .rt]⟩
  | 0x1a => some ⟨"div", [.rs, .rt]⟩
  | 0x1b => some ⟨"divu", [.rs, .rt]⟩
  | 0x20 => some ⟨"add", [.rd, .rs, .rt]⟩
  | 0x21 => some ⟨"addu", [.rd, .rs, .rt]⟩
  | 0x22 => some ⟨"sub", [.rd, .rs, .rt]⟩
  | 0x23 => some ⟨"subu", [.rd, .rs, .rt]⟩
  | 0x24 => some ⟨"and", [.rd, .rs, .rt]⟩
  | 0x25 => some ⟨"or", [.rd, .rs, .rt]⟩
  | 0x26 => some ⟨"xor", [.rd, .rs, .rt]⟩
  | 0x27 => some ⟨"nor", [.rd, .rs, .rt]⟩
  | 0x2a => some ⟨"slt", [.rd, .rs, .rt]⟩
  | 0x2b => some ⟨"sltu", [.rd, .rs, .rt]⟩
  | 0x30 => some ⟨"tge", [.rs, .rt]⟩
  | 0x32 => some ⟨"tlt", [.rs, .rt]⟩
  | 0x34 => some ⟨"teq", [.rs, .rt]⟩
  | 0x36 => some ⟨"tne", [.rs, .rt]⟩
  | _ => none

/-- A branch that compares one register with zero, by its condition. -/
def ofCondition? (condition : Word) : Option Display :=
  let name? := match condition with
    | 0x00 => some "bltz"
    | 0x01 => some "bgez"
    | 0x10 => some "bltzal"
    | 0x11 => some "bgezal"
    | _ => none
  name?.map (⟨·, [.rs, .number]⟩)

/-- The other layouts, by their operation. -/
def ofOp? : Word → Option Display
  | 0x02 => some ⟨"j", [.target]⟩
  | 0x03 => some ⟨"jal", [.target]⟩
  | 0x04 => some ⟨"beq", [.rs, .rt, .number]⟩
  | 0x05 => some ⟨"bne", [.rs, .rt, .number]⟩
  | 0x06 => some ⟨"blez", [.rs, .number]⟩
  | 0x07 => some ⟨"bgtz", [.rs, .number]⟩
  | 0x08 => some ⟨"addi", [.rt, .rs, .number]⟩
  | 0x09 => some ⟨"addiu", [.rt, .rs, .number]⟩
  | 0x0a => some ⟨"slti", [.rt, .rs, .number]⟩
  | 0x0b => some ⟨"sltiu", [.rt, .rs, .number]⟩
  | 0x0c => some ⟨"andi", [.rt, .rs, .bits]⟩
  | 0x0d => some ⟨"ori", [.rt, .rs, .bits]⟩
  | 0x0e => some ⟨"xori", [.rt, .rs, .bits]⟩
  | 0x0f => some ⟨"lui", [.rt, .bits]⟩
  | 0x14 => some ⟨"beql", [.rs, .rt, .number]⟩
  | 0x15 => some ⟨"bnel", [.rs, .rt, .number]⟩
  | 0x16 => some ⟨"blezl", [.rs, .number]⟩
  | 0x17 => some ⟨"bgtzl", [.rs, .number]⟩
  | 0x20 => some ⟨"lb", [.rt, .memory]⟩
  | 0x21 => some ⟨"lh", [.rt, .memory]⟩
  | 0x22 => some ⟨"lwl", [.rt, .memory]⟩
  | 0x23 => some ⟨"lw", [.rt, .memory]⟩
  | 0x24 => some ⟨"lbu", [.rt, .memory]⟩
  | 0x25 => some ⟨"lhu", [.rt, .memory]⟩
  | 0x26 => some ⟨"lwr", [.rt, .memory]⟩
  | 0x28 => some ⟨"sb", [.rt, .memory]⟩
  | 0x29 => some ⟨"sh", [.rt, .memory]⟩
  | 0x2a => some ⟨"swl", [.rt, .memory]⟩
  | 0x2b => some ⟨"sw", [.rt, .memory]⟩
  | 0x2e => some ⟨"swr", [.rt, .memory]⟩
  | _ => none

/-- What is shown for an instruction; the word zero is `nop`. -/
def ofInstruction? (i : Instruction) : Option Display :=
  match i.op with
  | 0x00 => if i.word = 0 then some ⟨"nop", []⟩ else ofFunct? i.funct
  | 0x01 => ofCondition? (i.word.bits 16 20)
  | op => ofOp? op

end Display

namespace Instruction

/-- The text of what is shown for an operand of `i`. -/
def shownText (i : Instruction) : Shown → String
  | .rd => i.rd.text
  | .rs => i.rs.text
  | .rt => i.rt.text
  | .shift => toString i.shift.toNat
  | .number => toString i.signedImm
  | .bits => i.imm.hex
  | .target => i.target.hex
  | .memory => toString i.signedImm ++ "(" ++ i.rs.text ++ ")"

/-- The text of `i` as it is displayed. -/
def textAs (i : Instruction) (d : Display) : String :=
  match d.operands with
  | [] => d.name
  | operands => d.name ++ " " ++ ", ".intercalate (operands.map i.shownText)

/-- The text of an instruction. -/
def text (i : Instruction) : String :=
  match Display.ofInstruction? i with
  | some d => i.textAs d
  | none => "illegal"

end Instruction

end Mips
