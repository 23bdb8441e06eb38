import Mips.Assembly.Encoding
import Mips.Assembly.Image

/-!
# Layout

The first pass gives every line its place. Labels and constants are bound, directives are read and
executed, and instructions get room for their words. A line that would pass the last address is
left out.
-/

namespace Mips

/-- What is left to do for a line once every line has its place. -/
inductive Plan where
  | nothing
  /-- Encode the instruction `m` with the given arguments. -/
  | instruction (m : Mnemonic) (args : List Token)
  /-- Execute a directive again. -/
  | directive (d : Directive)
  deriving DecidableEq, Repr

/-- A line with its place. -/
structure Placed where
  line : Line
  place : Section
  address : Word
  plan : Plan
  problems : List Problem
  /-- The constant that the line bound, and its value. -/
  bound : Option (String × Word)
  deriving DecidableEq, Repr

namespace Placed

/-- The diagnostics of a line in the first pass. -/
def diagnostics (p : Placed) : List Diagnostic := p.problems.map (⟨p.line.number, ·⟩)

end Placed

namespace Layout

/-- What a statement does to the image in the first pass. -/
structure Step where
  image : Image
  plan : Plan := .nothing
  problems : List Problem := []
  bound : Option (String × Word) := none

/-- Bind the label of a line to the address of the line. -/
def bindLabel (image : Image) : Option String → Image × List Problem
  | none => (image, [])
  | some name =>
    match image.symbols.define name image.address (some image.active) with
    | .ok symbols => ({ image with symbols }, [])
    | .error cause => (image, [.duplicate .label name cause])

/-- Bind a constant to its value. -/
def bindConstant (image : Image) (name : String) (value : List Token) : Step :=
  if value.isEmpty then { image, problems := [.constantWithoutValue name] }
  else
    match Expr.evalTokens image.symbols image.address value with
    | .error cause => { image, problems := [.expression cause] }
    | .ok none => { image, problems := [.constantNotKnown name] }
    | .ok (some v) =>
      match image.symbols.define name v none with
      | .ok symbols => { image := { image with symbols }, bound := some (name, v) }
      | .error cause => { image, problems := [.duplicate .constant name cause] }

/-- Set room aside for an instruction. -/
def placeInstruction (isa : Isa) (image : Image) (name : String) (args : List Token) : Step :=
  match Mnemonic.select isa name (Line.splitArgs args).length with
  | .error problem => { image, problems := [problem] }
  | .ok m =>
    if image.current.hasRoom m.size then
      { image := image.onCurrent (·.skip m.size), plan := .instruction m args }
    else { image, problems := [.overflow image.active] }

/-- Read and execute a directive. -/
def placeDirective (image : Image) (name : String) (args : List Token) : Step :=
  match Directive.read image.symbols image.address name args with
  | (none, problems) => { image, problems }
  | (some d, problems) =>
    if image.current.hasRoom (image.sizeOf d) then
      { image := image.execute d, plan := .directive d, problems }
    else { image, problems := problems ++ [.overflow image.active] }

/-- The first pass over a statement. -/
def placeStatement (isa : Isa) (image : Image) : Option Statement → Step
  | none => { image }
  | some (.constant name value) => bindConstant image name value
  | some (.instruction name args) => placeInstruction isa image name args
  | some (.directive name args) => placeDirective image name args

/-- The first pass over a line. -/
def placeLine (isa : Isa) (image : Image) (line : Line) : Image × Placed :=
  let place := image.active
  let address := image.address
  let (labelled, problems) := bindLabel image line.label
  let step := placeStatement isa labelled line.statement
  (step.image,
    { line, place, address, plan := step.plan, problems := problems ++ step.problems
      bound := step.bound })

/-- The first pass. -/
def placeLines (isa : Isa) : Image → List Line → Image × List Placed
  | image, [] => (image, [])
  | image, line :: lines =>
    let (image, placed) := placeLine isa image line
    let (image, rest) := placeLines isa image lines
    (image, placed :: rest)

end Layout

end Mips
