import Mips.Machine.Instruction

/-!
# Pseudo-instructions

Some mnemonics stand for one to three real instructions. Where an expansion needs a register of its
own it takes `$at`. Room is set aside by `length` before the operands are known, and `expand` fills
it.
-/

namespace Mips

/-- A mnemonic that is expanded into real instructions. -/
inductive Pseudo where
  | li
  | la
  | move
  | abs
  | blt
  | bgt
  | sge
  | b
  | beqz
  | bnez
  | not
  | neg
  deriving DecidableEq, Repr

namespace Pseudo

/-- How many instructions an expansion has. -/
def length : Pseudo → Nat
  | li | la | blt | bgt | sge => 2
  | abs => 3
  | move | b | beqz | bnez | not | neg => 1

/-- Where in the expansion the branch to the offset operand stands, for those that have one. Its
offset is counted from there. -/
def branchIndex? : Pseudo → Option Nat
  | blt | bgt => some 1
  | b | beqz | bnez => some 0
  | _ => none

/-- The real instructions that a pseudo-instruction stands for. -/
def expand (p : Pseudo) (o : Operands) : List Instruction :=
  match p with
  | li | la =>
    [.encode .lui { rt := .scratch, imm := o.imm.bits 16 31 },
     .encode .ori { rt := o.rt, rs := .scratch, imm := o.imm.bits 0 15 }]
  | move => [.encode .addu { rd := o.rt, rs := o.rs, rt := .zero }]
  | abs =>
    [.encode .addu { rd := o.rt, rs := o.rs, rt := .zero },
     .encode .bgez { rs := o.rs, imm := 2 },
     .encode .sub { rd := o.rt, rs := .zero, rt := o.rs }]
  | blt =>
    [.encode .slt { rd := .scratch, rs := o.rs, rt := o.rt },
     .encode .bne { rs := .scratch, rt := .zero, imm := o.imm }]
  | bgt =>
    [.encode .slt { rd := .scratch, rs := o.rt, rt := o.rs },
     .encode .bne { rs := .scratch, rt := .zero, imm := o.imm }]
  | sge =>
    [.encode .slt { rd := o.rd, rs := o.rs, rt := o.rt },
     .encode .xori { rt := o.rd, rs := o.rd, imm := 1 }]
  | b => [.encode .beq { rs := .zero, rt := .zero, imm := o.imm }]
  | beqz => [.encode .beq { rs := o.rs, rt := .zero, imm := o.imm }]
  | bnez => [.encode .bne { rs := o.rs, rt := .zero, imm := o.imm }]
  | not => [.encode .nor { rd := o.rd, rs := o.rs, rt := .zero }]
  | neg => [.encode .sub { rd := o.rd, rs := .zero, rt := o.rs }]

end Pseudo

end Mips
