import Mips.Assembly.Realization
import Mips.Machine.Disassembly
import Mips.Source.ReadError

/-!
# Assembling a source

`assemble` reads a source, places its lines, realizes them, and collects what was found: a module,
the diagnostics by line, and a trace of what the passes did.
-/

namespace Mips

/-- One step of a run, for the log. -/
inductive TraceEvent where
  | firstPass (lines : Nat)
  | boundConstant (name : String) (value : Word)
  | secondPass
  | wrote (address : Word) (instruction : Instruction)
  | assembled (text data diagnostics : Nat)
  deriving DecidableEq, Repr

namespace TraceEvent

/-- The text of a step. -/
def message : TraceEvent → String
  | firstPass lines => s!"first pass over {lines} lines"
  | boundConstant name value => s!"bound macro {name} to {value.hex}"
  | secondPass => "second pass"
  | wrote address instruction => s!"{address.hex8}: {instruction.text}"
  | assembled text data diagnostics =>
    s!"assembled {text} bytes of text and {data} bytes of data with {diagnostics} diagnostics"

end TraceEvent

/-- The result of assembling a source. -/
structure Assembly where
  module : Module
  /-- By line; those of one line in the order they were found. -/
  diagnostics : List Diagnostic
  trace : List TraceEvent
  deriving DecidableEq, Repr

namespace Assembly

/-- Whether a statement was dropped, so that the module should not be used. -/
def hasErrors (a : Assembly) : Bool := a.diagnostics.any (·.isError)

/-- The lines that refer to symbols without address, each symbol with the first line only. -/
def references (realized : List Realized) : List (Nat × String) :=
  realized.foldl (fun seen r =>
    match r.relocation with
    | some reloc => if seen.any (·.2 = reloc.symbol) then seen else seen ++ [(r.line, reloc.symbol)]
    | none => seen) []

/-- Whether a linker can be expected to know `name`. -/
def isDeclared (symbols : SymbolTable) (name : String) : Bool :=
  match symbols.get? name with
  | some s => s.address.isSome || s.isGlobal
  | none => false

/-- A warning for each symbol that is referred to and not declared. -/
def undefinedSymbols (symbols : SymbolTable) (realized : List Realized) : List Diagnostic :=
  (references realized).filterMap fun (line, name) =>
    if isDeclared symbols name then none else some ⟨line, .undefinedSymbol name⟩

/-- The steps of a run. -/
def traceOf (lines : Nat) (placed : List Placed) (realized : List Realized) (image : Image)
    (diagnostics : Nat) : List TraceEvent :=
  .firstPass lines ::
    placed.filterMap (fun p => p.bound.map fun (name, value) => .boundConstant name value) ++
    .secondPass :: realized.flatMap (fun r => r.words.map fun (address, i) => .wrote address i) ++
    [.assembled image.text.bytes.size image.data.bytes.size diagnostics]

/-- Check that a section has kept its length. -/
def checkSize (layout image : Image) (place : Section) : Except Fault Unit :=
  let expected := (layout.segment place).bytes.size
  let found := (image.segment place).bytes.size
  if found = expected then .ok () else .error (.resized place expected found)

end Assembly

open Assembly in
/-- Assemble a source. -/
def assemble (source : String) (settings : Settings) : Except Fault Assembly := do
  let source := Source.read source
  let (layout, placed) := Layout.placeLines settings.isa (.start settings) source.lines
  let (image, realized) ← Realization.realizeLines settings.isa layout.rewind placed
  checkSize layout image .text
  checkSize layout image .data
  let diagnostics :=
    source.diagnostics ++ placed.flatMap (·.diagnostics) ++ realized.flatMap (·.diagnostics) ++
      undefinedSymbols image.symbols realized
  return {
    module := image.toModule (realized.filterMap (·.relocation))
    diagnostics := Diagnostic.byLine diagnostics
    trace := traceOf source.lines.length placed realized image diagnostics.length }

/-- Why there is no assembly at all. -/
inductive Failure where
  | unreadable (cause : ReadError)
  | fault (cause : Fault)
  deriving DecidableEq, Repr

/-- The text of a failure. -/
def Failure.message : Failure → String
  | unreadable cause => "failed to read source: " ++ cause.message
  | fault cause => cause.message

/-- Assemble a source that is given as bytes. -/
def assembleBytes (bytes : Bytes) (settings : Settings) : Except Failure Assembly :=
  match textOfBytes bytes with
  | .error cause => .error (.unreadable cause)
  | .ok source =>
    match assemble source settings with
    | .error cause => .error (.fault cause)
    | .ok a => .ok a

end Mips
