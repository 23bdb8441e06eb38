import Mips.Source.Line

/-!
# Directives

A directive chooses the section, moves on in it, puts data into it or exports a name. Its arguments
have to be known where it stands. A data directive leaves out the values that it cannot use, each
with an error, and keeps the others.
-/

namespace Mips

/-- A directive with its arguments evaluated. -/
inductive Directive where
  /-- Go on in the given section. -/
  | choose (place : Section)
  /-- Zeros up to a multiple of `boundary`. -/
  | align (boundary : Word)
  /-- The given number of zeros. -/
  | reserve (size : Nat)
  | data (bytes : List UInt8)
  /-- Export a name. -/
  | global (name : String)
  deriving DecidableEq, Repr

namespace Directive

/-- The largest boundary of an alignment and the largest number of bytes to reserve. -/
def limit : Word := 0x1000000

/-- The bytes of `value` in a data directive for `width` bytes. -/
def valueBytes (width : Nat) (value : Word) : List UInt8 :=
  (value.low (8 * width)).bytes.drop (4 - width)

/-- One value of a data directive: its bytes, and what is wrong with it. -/
def dataValue (symbols : SymbolTable) (address : Word) (name : String) (width : Nat)
    (arg : List Token) : List UInt8 × List Problem :=
  match Expr.evalTokens symbols address arg with
  | .error e => ([], [.valueExpression name e])
  | .ok none => ([], [.valueNotKnown name])
  | .ok (some v) =>
    (valueBytes width v, if v.fits (8 * width) then [] else [.dataCut v (8 * width)])

/-- One string of a data directive, with a zero behind it if `terminated`. -/
def dataString (name : String) (terminated : Bool) (arg : List Token) : List UInt8 × List Problem :=
  match arg with
  | [⟨.string s, _⟩] => (s.toUTF8.data.toList ++ if terminated then [0] else [], [])
  | _ => ([], [.notString name])

/-- The data directive whose arguments give the bytes and problems in `parts`. -/
def ofParts (parts : List (List UInt8 × List Problem)) : Option Directive × List Problem :=
  (some (.data (parts.flatMap (·.1))), parts.flatMap (·.2))

/-- The value of an argument that has to be known. -/
def known (symbols : SymbolTable) (address : Word) (name : String) (arg : List Token) :
    Except Problem Word :=
  match Expr.evalTokens symbols address arg with
  | .error e => .error (.argumentExpression name e)
  | .ok none => .error (.argumentNotKnown name)
  | .ok (some v) => .ok v

/-- The directive that exports a name. -/
def exporting (arg : List Token) : Except Problem Directive :=
  match arg with
  | [⟨.name name, _⟩] =>
    if isLegalName name then .ok (.global name) else .error (.illegalSymbol name)
  | _ => .error .notSymbolName

/-- The alignment to `boundary`. -/
def alignTo (boundary : Word) : Except Problem Directive :=
  if boundary = 0 then .error .alignToZero
  else if limit < boundary then .error (.alignBeyond boundary limit)
  else .ok (.align boundary)

/-- The reservation of `size` bytes. -/
def reserveBytes (size : Word) : Except Problem Directive :=
  if limit < size then .error (.reserveBeyond size limit) else .ok (.reserve size.toNat)

/-- A directive that takes no argument. -/
def plain (name : String) (args : List (List Token)) (d : Directive) :
    Option Directive × List Problem :=
  match args with
  | [] => (some d, [])
  | args => (none, [.argumentCount name 0 args.length])

/-- A directive that takes one argument. -/
def single (name : String) (args : List (List Token))
    (make : List Token → Except Problem Directive) : Option Directive × List Problem :=
  match args with
  | [arg] =>
    match make arg with
    | .ok d => (some d, [])
    | .error problem => (none, [problem])
  | args => (none, [.argumentCount name 1 args.length])

/-- Read the directive `name` at `address`. -/
def read (symbols : SymbolTable) (address : Word) (name : String) (tokens : List Token) :
    Option Directive × List Problem :=
  let args := Line.splitArgs tokens
  let values (width : Nat) :=
    if args.isEmpty then (none, [.noValue name])
    else ofParts (args.map (dataValue symbols address name width))
  let strings (terminated : Bool) :=
    if args.isEmpty then (none, [.noString name])
    else ofParts (args.map (dataString name terminated))
  match name with
  | "text" => plain name args (.choose .text)
  | "data" => plain name args (.choose .data)
  | "globl" => single name args exporting
  | "align" => single name args fun arg => known symbols address name arg >>= alignTo
  | "space" => single name args fun arg => known symbols address name arg >>= reserveBytes
  | "word" => values 4
  | "half" => values 2
  | "byte" => values 1
  | "ascii" => strings false
  | "asciiz" => strings true
  | _ => (none, [.unknownDirective name])

end Directive

end Mips
