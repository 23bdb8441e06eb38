import Mathlib.Algebra.Ring.Nat
import Mathlib.Data.Nat.Find
import Mips.Assembly

/-!
# Listings

A listing has a row for every line of a source: the section it goes to, its address there, and
what is left to do for it. It is made line by line from nothing but the sizes of the earlier rows
and the names known so far; there is no buffer, no cursor and no second pass. Once the last line is
entered the names are complete, and the bytes of a row follow from its plan and these names.

    line ──▶ address = base + sizes of the earlier rows of the section
             label    ──▶ names
             constant ──▶ names
             accepted, and there is room ──▶ plan ──▶ size, section, names
-/

namespace Mips

/-- The address of the first byte of a section. -/
def Settings.base (settings : Settings) : Section → Word
  | .text => settings.textBase
  | .data => settings.dataBase

theorem exists_gap (address boundary : Word) :
    ∃ n, boundary = 0 ∨ boundary.toNat ∣ address.toNat + n := by
  by_cases hb : boundary = 0
  · exact ⟨0, Or.inl hb⟩
  · have hpos : 0 < boundary.toNat :=
      Nat.pos_of_ne_zero fun h => hb (BitVec.eq_of_toNat_eq h)
    refine ⟨boundary.toNat * address.toNat - address.toNat, Or.inr ?_⟩
    rw [Nat.add_sub_cancel' (Nat.le_mul_of_pos_left _ hpos)]
    exact Nat.dvd_mul_right _ _

/-- The fewest bytes from `address` to a multiple of `boundary`. -/
def gap (address boundary : Word) : Nat := Nat.find (exists_gap address boundary)

/-- The bytes that a directive adds at `address`. -/
def Directive.bytes (address : Word) : Directive → List UInt8
  | .align boundary => List.replicate (gap address boundary) 0
  | .reserve size => List.replicate size 0
  | .data bytes => bytes
  | .choose _ | .global _ => []

/-- The table with `name` defined, where it may be. -/
def SymbolTable.tryDefine (t : SymbolTable) (name : String) (address : Word)
    (home : Option Section) : SymbolTable :=
  match t.define name address home with
  | .ok u => u
  | .error _ => t

namespace Plan

/-- How many bytes a plan takes at `address`. -/
def size (address : Word) : Plan → Nat
  | .nothing => 0
  | .instruction m _ => m.size
  | .directive d => (d.bytes address).length

/-- The bytes of a plan at `address`, with `names` for its operands: the words of an instruction, or
zeros if it cannot be encoded, and the bytes of a directive. -/
def bytes (isa : Isa) (names : SymbolTable) (address : Word) : Plan → List UInt8
  | .nothing => []
  | .instruction m args =>
    match Encoding.ofStatement isa names address m.name args with
    | .ok e => e.words.flatMap (·.bytes)
    | .error _ => List.replicate m.size 0
  | .directive d => d.bytes address

/-- The section that is active after a plan. -/
def next (active : Section) : Plan → Section
  | .directive (.choose place) => place
  | _ => active

end Plan

/-- A line of a listing. -/
structure Row where
  line : Line
  place : Section
  address : Word
  plan : Plan
  deriving DecidableEq, Repr

namespace Row

/-- How many bytes the row takes. -/
def size (e : Row) : Nat := e.plan.size e.address

/-- The bytes that the row adds to its section. -/
def bytes (isa : Isa) (names : SymbolTable) (e : Row) : List UInt8 :=
  e.plan.bytes isa names e.address

/-- The section that is active behind the last row, text at first. -/
def active (rows : List Row) : Section := rows.foldl (fun place e => e.plan.next place) .text

/-- How many bytes the rows take in a section. -/
def sizeIn (place : Section) (rows : List Row) : Nat :=
  ((rows.filter (·.place = place)).map size).sum

/-- The bytes of the rows in a section. -/
def bytesIn (isa : Isa) (names : SymbolTable) (place : Section) (rows : List Row) :
    List UInt8 :=
  (rows.filter (·.place = place)).flatMap (bytes isa names)

/-- The address behind the last row. -/
def nextAddress (settings : Settings) (rows : List Row) : Word :=
  settings.base (active rows) + BitVec.ofNat 32 (sizeIn (active rows) rows)

/-- Whether `n` more bytes behind the last row end at or below the last address. -/
def hasRoom (settings : Settings) (rows : List Row) (n : Nat) : Bool :=
  (settings.base (active rows)).toNat + sizeIn (active rows) rows + n ≤ 0xffffffff

end Row

/-- A listing: its rows, and the names that its lines made known. -/
structure Listing where
  rows : List Row
  names : SymbolTable

namespace Listing

/-- The names behind a label at `address`. -/
def labelled (names : SymbolTable) (place : Section) (address : Word) : Option String → SymbolTable
  | none => names
  | some name => names.tryDefine name address (some place)

/-- What is left to do for a statement at `address`, if it is accepted and there is room. -/
def plan (isa : Isa) (names : SymbolTable) (address : Word) (hasRoom : Nat → Bool) :
    Option Statement → Plan
  | some (.instruction name args) =>
    match Mnemonic.select isa name (Line.splitArgs args).length with
    | .ok m => if hasRoom m.size then .instruction m args else .nothing
    | .error _ => .nothing
  | some (.directive name args) =>
    match (Directive.read names address name args).1 with
    | some d => if hasRoom (d.bytes address).length then .directive d else .nothing
    | none => .nothing
  | some (.constant _ _) | none => .nothing

/-- The names behind a statement at `address` with the given plan. -/
def namesAfter (names : SymbolTable) (address : Word) (plan : Plan) :
    Option Statement → SymbolTable
  | some (.constant name value) =>
    match Expr.evalTokens names address value with
    | .ok (some v) => names.tryDefine name v none
    | _ => names
  | _ =>
    match plan with
    | .directive (.global name) => names.markGlobal name
    | _ => names

/-- The listing without lines. -/
def empty : Listing := ⟨[], .empty⟩

/-- The names that the statement of the next line can use; its own label is one of them. -/
def known (settings : Settings) (l : Listing) (line : Line) : SymbolTable :=
  labelled l.names (Row.active l.rows) (Row.nextAddress settings l.rows) line.label

/-- The row of the next line. -/
def row (settings : Settings) (l : Listing) (line : Line) : Row :=
  { line
    place := Row.active l.rows
    address := Row.nextAddress settings l.rows
    plan := plan settings.isa (l.known settings line) (Row.nextAddress settings l.rows)
      (Row.hasRoom settings l.rows) line.statement }

/-- Enter a line. -/
def add (settings : Settings) (l : Listing) (line : Line) : Listing :=
  { rows := l.rows ++ [l.row settings line]
    names := namesAfter (l.known settings line) (l.row settings line).address
      (l.row settings line).plan line.statement }

/-- The listing of a source. -/
def ofLines (settings : Settings) (lines : List Line) : Listing := lines.foldl (add settings) empty

end Listing

end Mips
