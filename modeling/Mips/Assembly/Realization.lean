import Mips.Assembly.Layout

/-!
# Realization

The second pass goes over the same places again, now with every label known, and encodes the
instructions. An instruction that cannot be encoded leaves zeros. The pass checks that it finds each
line where the first pass put it; that it always does is a theorem about the two passes, and a
`Fault` is what the check would report.
-/

namespace Mips

/-- The two passes do not agree. -/
inductive Fault where
  /-- A line is not where the first pass put it. -/
  | moved (line : Nat) (layout realization : Word)
  /-- A section does not have the length that the first pass gave it. -/
  | resized (place : Section) (expected found : Nat)
  /-- An instruction does not have the words that it got room for. -/
  | miscounted (name : String) (expected found : Nat)
  deriving DecidableEq, Repr

namespace Fault

/-- The text of a fault. -/
def message : Fault → String
  | moved line layout realization =>
    s!"line {line} is at {realization.hex8} in the second pass, but at {layout.hex8} in the first"
  | resized place expected found =>
    s!"the {place.name} section is {found} bytes after the second pass, but {expected} after the first"
  | miscounted name expected found =>
    s!"'{name}' was expanded to {found} instructions, but {expected} were reserved"

end Fault

/-- What the second pass made of a line. -/
structure Realized where
  line : Nat
  problems : List Problem := []
  relocation : Option Relocation := none
  /-- The words that were written, with their addresses. -/
  words : List (Word × Instruction) := []
  deriving DecidableEq, Repr

namespace Realized

/-- The diagnostics of a line in the second pass. -/
def diagnostics (r : Realized) : List Diagnostic := r.problems.map (⟨r.line, ·⟩)

end Realized

namespace Realization

/-- Words with the addresses they have when the first is at `address`. -/
def addressed (address : Word) : List Instruction → List (Word × Instruction)
  | [] => []
  | i :: rest => (address, i) :: addressed (address + 4) rest

/-- Write words at the cursor. -/
def writeWords (image : Image) (words : List Instruction) : Image :=
  words.foldl (fun image i => image.onCurrent (·.write i.bytes)) image

/-- Encode an instruction into the room it got. -/
def realizeInstruction (isa : Isa) (image : Image) (line : Nat) (m : Mnemonic) (args : List Token) :
    Except Fault (Image × Realized) :=
  let address := image.address
  match Encoding.ofStatement isa image.symbols address m.name args with
  | .error problems => .ok (image.onCurrent (·.skip m.size), { line, problems })
  | .ok e =>
    if e.words.length = m.length then
      .ok (writeWords image e.words,
        { line, problems := e.warnings
          relocation := e.symbol.map (⟨address + BitVec.ofNat 32 (4 * e.fieldIndex), ·⟩)
          words := addressed address e.words })
    else .error (.miscounted m.name m.length e.words.length)

/-- The second pass over a line. -/
def realizeLine (isa : Isa) (image : Image) (p : Placed) : Except Fault (Image × Realized) :=
  if image.active = p.place ∧ image.address = p.address then
    match p.plan with
    | .nothing => .ok (image, { line := p.line.number })
    | .directive d => .ok (image.execute d, { line := p.line.number })
    | .instruction m args => realizeInstruction isa image p.line.number m args
  else .error (.moved p.line.number p.address image.address)

/-- The second pass. -/
def realizeLines (isa : Isa) : Image → List Placed → Except Fault (Image × List Realized)
  | image, [] => .ok (image, [])
  | image, p :: rest =>
    match realizeLine isa image p with
    | .error fault => .error fault
    | .ok (image, r) =>
      match realizeLines isa image rest with
      | .error fault => .error fault
      | .ok (image, rs) => .ok (image, r :: rs)

end Realization

end Mips
