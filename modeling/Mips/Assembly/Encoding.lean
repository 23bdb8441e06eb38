import Mips.Machine.Mnemonic
import Mips.Source.Line

/-!
# Encoding of instructions

An instruction statement is encoded at an address against a symbol table. Its mnemonic says which
operands it takes; they are bound from left to right, up to the first that cannot be bound. A number
that is too wide for its field is cut, with a warning. A number that depends on a symbol without
address is left zero, and the symbol is recorded.
-/

namespace Mips

/-- The mnemonic `name`, if the revision has it and it takes `count` operands. -/
def Mnemonic.select (isa : Isa) (name : String) (count : Nat) : Except Problem Mnemonic :=
  match Mnemonic.ofName? name with
  | none => .error (.unknownInstruction name)
  | some m =>
    if ¬ m.since ≤ isa then .error (.unsupported name m.since isa)
    else if m.operands.length ≠ count then .error (.operandCount name m.operands.length count)
    else .ok m

/-- An instruction statement in machine form. -/
structure Encoding where
  words : List Instruction
  /-- A symbol without address that an operand depends on. -/
  symbol : Option String
  /-- The word, counted from the first, that has the field for that symbol. -/
  fieldIndex : Nat
  warnings : List Problem
  deriving DecidableEq, Repr

namespace Encoding

/-- Where an instruction stands. -/
structure Place where
  symbols : SymbolTable
  /-- The address of the first word. -/
  address : Word
  /-- The address of the word that branches, for those that do. -/
  branch : Word

/-- The operands bound so far. -/
structure Bound where
  operands : Operands := {}
  symbol : Option String := none
  warnings : List Problem := []
  deriving DecidableEq, Repr

/-! ### Operands -/

/-- The register that an operand names. -/
def register (arg : List Token) : Except Problem Register :=
  let register? := match arg with
    | [⟨.register name, _⟩] => Register.ofName? name
    | _ => none
  match register? with
  | some r => .ok r
  | none => .error (.notRegister (Token.spanText arg))

/-- The expression of an operand and its value. -/
def value (p : Place) (arg : List Token) : Except Problem (Expr × Option Word) :=
  match Expr.parse arg with
  | .error e => .error (.expression e)
  | .ok e =>
    match e.eval p.symbols p.address with
    | .error e => .error (.expression e)
    | .ok v => .ok (e, v)

/-- The symbol to record for an expression that is not known: the first one that is missing, unless
an earlier operand had one. -/
def Bound.awaiting (b : Bound) (p : Place) (e : Expr) : Bound :=
  { b with symbol := b.symbol.or (e.unresolved? p.symbols) }

/-- Cut `value` to `field`, with a warning if it is not whole in it. -/
def Bound.put (b : Bound) (field : Field) (value : Word) (set : Operands → Word → Operands) : Bound :=
  { b with
    operands := set b.operands (field.cut value)
    warnings := if field.holds value then b.warnings else b.warnings ++ [.cut field value] }

/-- Bind an operand that is a number. `adjust` makes the number for the field out of the value. -/
def number (p : Place) (b : Bound) (arg : List Token) (field : Field)
    (adjust : Expr → Word → Word) (set : Operands → Word → Operands) : Except Problem Bound :=
  match value p arg with
  | .error problem => .error problem
  | .ok (e, some v) => .ok (b.put field (adjust e v) set)
  | .ok (e, none) => .ok ((b.awaiting p e).put field 0 set)

/-- The number of words from behind the branch to `v`. A number that is no address is taken as it
is. -/
def branchOffset (p : Place) (e : Expr) (v : Word) : Word :=
  if e.hasLabel p.symbols then (v - (p.branch + 4)).sshiftRight 2 else v

/-- The field of a jump to `v`. A number that is no address is taken as it is. -/
def jumpTarget (p : Place) (e : Expr) (v : Word) : Word :=
  if e.hasLabel p.symbols then v >>> 2 else v

/-- The parts of the operand `offset(register)`: the tokens of the offset and the register. -/
def memoryParts (arg : List Token) : Option (List Token × Register) :=
  match arg.reverse with
  | ⟨.rightParen, _⟩ :: ⟨.register name, _⟩ :: ⟨.leftParen, _⟩ :: offset =>
    (Register.ofName? name).map (offset.reverse, ·)
  | _ => none

/-- The offset and the register of an operand in memory. The offset may be missing; it has to be
known and to fit 16 bits under one of its readings. -/
def memory (p : Place) (arg : List Token) : Except Problem (Word × Register) :=
  let problem := Problem.notMemory (Token.spanText arg)
  match memoryParts arg with
  | none => .error problem
  | some ([], base) => .ok (0, base)
  | some (offset, base) =>
    match Expr.evalTokens p.symbols p.address offset with
    | .ok (some v) => if v.fits 16 then .ok (v.low 16, base) else .error problem
    | _ => .error problem

/-- Bind one operand. -/
def bindOperand (p : Place) (b : Bound) (kind : OperandKind) (arg : List Token) :
    Except Problem Bound :=
  match kind with
  | .rd => (register arg).map fun r => { b with operands := { b.operands with rd := r } }
  | .rs => (register arg).map fun r => { b with operands := { b.operands with rs := r } }
  | .rt => (register arg).map fun r => { b with operands := { b.operands with rt := r } }
  | .shift => number p b arg .shift (fun _ v => v) fun o v => { o with shift := v }
  | .immediate => number p b arg .immediate (fun _ v => v) fun o v => { o with imm := v }
  | .offset => number p b arg .offset (branchOffset p) fun o v => { o with imm := v }
  | .target => number p b arg .target (jumpTarget p) fun o v => { o with imm := v }
  | .full =>
    match value p arg with
    | .error problem => .error problem
    | .ok (_, some v) => .ok { b with operands := { b.operands with imm := v } }
    | .ok (e, none) =>
      .ok { b.awaiting p e with operands := { b.operands with imm := 0 } }
  | .memory =>
    (memory p arg).map fun (offset, base) =>
      { b with operands := { b.operands with imm := offset, rs := base } }

/-- Bind operands from left to right. A failure is reported behind the warnings so far. -/
def bindAll (p : Place) : Bound → List (OperandKind × List Token) → Except (List Problem) Bound
  | b, [] => .ok b
  | b, (kind, arg) :: rest =>
    match bindOperand p b kind arg with
    | .error problem => .error (b.warnings ++ [problem])
    | .ok b => bindAll p b rest

/-! ### Instructions -/

/-- Encode the instruction `name` with the given arguments at `address`. If that fails, all that is
reported about the statement is given instead. -/
def ofStatement (isa : Isa) (symbols : SymbolTable) (address : Word) (name : String)
    (tokens : List Token) : Except (List Problem) Encoding :=
  let args := Line.splitArgs tokens
  match Mnemonic.select isa name args.length with
  | .error problem => .error [problem]
  | .ok m =>
    let branch := address + BitVec.ofNat 32 (4 * m.fieldIndex)
    match bindAll ⟨symbols, address, branch⟩ {} (m.operands.zip args) with
    | .error problems => .error problems
    | .ok b => .ok ⟨m.words b.operands, b.symbol, m.fieldIndex, b.warnings⟩

end Encoding

end Mips
