import Mips.Machine.Field
import Mips.Machine.Isa
import Mips.Object.Section
import Mips.Source.Expr

/-!
# Diagnostics

Nothing in a source stops the assembler. What is wrong with a line is a `Problem`, and a problem with
the number of its line is a diagnostic. An error means that the statement of the line was dropped, a
warning that it was kept.
-/

namespace Mips

/-- How bad a problem is. -/
inductive Severity where
  | warning
  | error
  deriving DecidableEq, Repr

namespace Severity

/-- The name of a severity in messages. -/
def name : Severity → String
  | warning => "warning"
  | error => "error"

end Severity

/-- The class of a problem. -/
inductive ProblemKind where
  | badToken
  | badStatement
  | badOperandCount
  | badRegister
  | badMemory
  | laterRevision
  | numberCut
  | badExpression
  | zeroDivision
  | stringOperand
  | illegalName
  | redefinition
  | unknownSymbol
  | missingValue
  | unknownValue
  | unknownDirective
  | badArgument
  | badArgumentCount
  | badData
  | addressOverflow
  deriving DecidableEq, Repr

/-- What gives a name an address. -/
inductive Definition where
  | label
  | constant
  deriving DecidableEq, Repr

namespace Definition

/-- The name of a definition in messages. -/
def name : Definition → String
  | label => "label"
  | constant => "macro"

end Definition

/-- What is wrong with a line. -/
inductive Problem where
  /-- The line cannot be cut into tokens. -/
  | token (cause : TokenError)
  /-- The line starts with something that starts no statement. -/
  | notStatement (text : String)
  | unknownInstruction (name : String)
  /-- The instruction came with a later revision than the target. -/
  | unsupported (name : String) (since target : Isa)
  | operandCount (name : String) (expected found : Nat)
  | notRegister (text : String)
  | notMemory (text : String)
  /-- A number was cut to the width of its field. -/
  | cut (field : Field) (value : Word)
  /-- A value of a data directive was cut to the given number of bits. -/
  | dataCut (value : Word) (bits : Nat)
  | expression (cause : ExprError)
  | illegalLabel (name : String)
  | illegalSymbol (name : String)
  | duplicate (definition : Definition) (name : String) (cause : Redefinition)
  /-- A symbol that is referred to has no address and is not global. -/
  | undefinedSymbol (name : String)
  | constantWithoutValue (name : String)
  /-- The value of a constant depends on a symbol without address. -/
  | constantNotKnown (name : String)
  | unknownDirective (name : String)
  | argumentCount (directive : String) (expected found : Nat)
  | notSymbolName
  /-- An argument depends on a symbol without address. -/
  | argumentNotKnown (directive : String)
  | argumentExpression (directive : String) (cause : ExprError)
  | alignToZero
  | alignBeyond (boundary limit : Word)
  | reserveBeyond (size limit : Word)
  | noValue (directive : String)
  | noString (directive : String)
  /-- A value of a data directive depends on a symbol without address. -/
  | valueNotKnown (directive : String)
  | valueExpression (directive : String) (cause : ExprError)
  | notString (directive : String)
  /-- The line would pass the last address. -/
  | overflow (place : Section)
  deriving DecidableEq, Repr

namespace Problem

/-- The class of a problem. -/
def kind : Problem → ProblemKind
  | token _ => .badToken
  | notStatement _ | unknownInstruction _ => .badStatement
  | unsupported _ _ _ => .laterRevision
  | operandCount _ _ _ => .badOperandCount
  | notRegister _ => .badRegister
  | notMemory _ => .badMemory
  | cut _ _ | dataCut _ _ => .numberCut
  | expression .divisionByZero => .zeroDivision
  | expression (.notNumber _) => .stringOperand
  | expression _ => .badExpression
  | illegalLabel _ | illegalSymbol _ => .illegalName
  | duplicate _ _ _ => .redefinition
  | undefinedSymbol _ => .unknownSymbol
  | constantWithoutValue _ => .missingValue
  | constantNotKnown _ => .unknownValue
  | unknownDirective _ => .unknownDirective
  | argumentCount _ _ _ | noValue _ | noString _ => .badArgumentCount
  | notSymbolName | argumentNotKnown _ | argumentExpression _ _ | alignToZero | alignBeyond _ _
  | reserveBeyond _ _ => .badArgument
  | valueNotKnown _ | valueExpression _ _ | notString _ => .badData
  | overflow _ => .addressOverflow

/-- Numbers that were cut, names left to a linker and directives of other assemblers are warnings;
all else is an error. -/
def severity (p : Problem) : Severity :=
  match p.kind with
  | .numberCut | .unknownSymbol | .unknownDirective => .warning
  | _ => .error

/-- The text of a problem. -/
def message : Problem → String
  | token cause => cause.message
  | notStatement text => s!"expected instruction, directive or macro, found '{text}'"
  | unknownInstruction name => s!"unknown instruction '{name}'"
  | unsupported name since target =>
    s!"'{name}' requires {since.title}, but the target is {target.title}"
  | operandCount name expected found => s!"'{name}' takes {expected} arguments, found {found}"
  | notRegister text => s!"expected register, found '{text}'"
  | notMemory text => s!"invalid memory operand '{text}'"
  | cut field value =>
    s!"{field.title} {value.hex} truncated to {field.width} bits ({(field.cut value).hex})"
  | dataCut value bits => s!"value {value.hex} truncated to {bits} bits"
  | expression cause => cause.message
  | illegalLabel name => s!"illegal label name '{name}'"
  | illegalSymbol name => s!"illegal symbol name '{name}'"
  | duplicate definition name cause => s!"{definition.name} '{name}' is {cause.message}"
  | undefinedSymbol name => s!"'{name}' isn't defined in this module and isn't declared global"
  | constantWithoutValue name => s!"macro '{name}' has no value"
  | constantNotKnown name =>
    s!"value of macro '{name}' depends on a symbol that isn't known yet"
  | unknownDirective name => s!"unknown directive '.{name}'"
  | argumentCount directive expected found =>
    s!".{directive} takes {expected} arguments, found {found}"
  | notSymbolName => ".globl takes a symbol name"
  | argumentNotKnown directive => s!"argument of .{directive} must be known when it's used"
  | argumentExpression directive cause => s!".{directive}: {cause.message}"
  | alignToZero => "alignment must be above zero"
  | alignBeyond boundary limit => s!"can't align to {boundary.hex}, the limit is {limit.hex}"
  | reserveBeyond size limit => s!"can't reserve {size.hex} bytes, the limit is {limit.hex}"
  | noValue directive => s!".{directive} takes at least one value"
  | noString directive => s!".{directive} takes at least one string"
  | valueNotKnown directive => s!"value of .{directive} must be known when it's used"
  | valueExpression directive cause => s!".{directive}: {cause.message}"
  | notString directive => s!".{directive} takes string literals"
  | overflow place => s!"{place.name} section would pass the end of the address space"

end Problem

/-- A problem and the number of its line. -/
structure Diagnostic where
  line : Nat
  problem : Problem
  deriving DecidableEq, Repr

namespace Diagnostic

/-- The text of a diagnostic: line, severity, message. -/
def text (d : Diagnostic) : String :=
  s!"{d.line}: {d.problem.severity.name}: {d.problem.message}"

/-- Whether a diagnostic is an error. -/
def isError (d : Diagnostic) : Bool := d.problem.severity == .error

/-- Put `d` in front of the first diagnostic of its line or a later one. -/
def insert (d : Diagnostic) : List Diagnostic → List Diagnostic
  | [] => [d]
  | e :: rest => if d.line ≤ e.line then d :: e :: rest else e :: insert d rest

/-- The diagnostics by line. Those of one line stay in their order. -/
def byLine (ds : List Diagnostic) : List Diagnostic := ds.foldr insert []

end Diagnostic

end Mips
