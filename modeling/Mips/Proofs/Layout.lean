import Mips.Proofs.Expr
import Mips.Proofs.Image

/-!
# The first pass makes the listing

`Listing.image` is the image that belongs to a listing: the bytes that its rows have so far, all
before the cursors, with zeros where instructions will stand. Placing a line on the image of a
listing gives the image of the listing with that line entered, and so does the whole first pass.
-/

namespace Mips

/-! ### Bytes after the first pass -/

namespace Plan

/-- The bytes that the first pass leaves for a plan: instructions are not encoded yet. -/
def reserved (address : Word) : Plan → List UInt8
  | .nothing => []
  | .instruction m _ => List.replicate m.size 0
  | .directive d => d.bytes address

theorem length_reserved (address : Word) (plan : Plan) :
    (plan.reserved address).length = plan.size address := by
  cases plan with
  | nothing => rfl
  | instruction m args => exact List.length_replicate
  | directive d => rfl

end Plan

namespace Row

/-- The bytes that the first pass leaves for a row. -/
def reserved (e : Row) : List UInt8 := e.plan.reserved e.address

/-- The bytes that the first pass leaves for the rows in a section. -/
def reservedIn (rows : List Row) (place : Section) : List UInt8 :=
  (rows.filter (·.place = place)).flatMap reserved

theorem length_reserved (e : Row) : e.reserved.length = e.size :=
  e.plan.length_reserved e.address

theorem length_reservedIn (rows : List Row) (place : Section) :
    (reservedIn rows place).length = sizeIn place rows := by
  simp only [reservedIn, sizeIn, List.length_flatMap, length_reserved]

theorem reservedIn_concat (rows : List Row) (e : Row) :
    reservedIn (rows ++ [e]) = appendAt e.place e.reserved (reservedIn rows) := by
  funext s
  by_cases h : e.place = s
  · simp [reservedIn, appendAt, h]
  · simp [reservedIn, appendAt, h, Ne.symm h]

theorem active_concat (rows : List Row) (e : Row) :
    active (rows ++ [e]) = e.plan.next (active rows) := by
  rw [active, List.foldl_append]
  rfl

end Row

namespace Listing

/-- The image that belongs to a listing while it is made. -/
def image (settings : Settings) (l : Listing) : Image :=
  .parted settings.base (Row.reservedIn l.rows) (fun _ => []) (Row.active l.rows) l.names

theorem image_empty (settings : Settings) : empty.image settings = .start settings := rfl

theorem address_image (settings : Settings) (l : Listing) :
    (l.image settings).address = Row.nextAddress settings l.rows := by
  rw [image, Image.address_parted, Row.length_reservedIn]
  rfl

theorem hasRoom_image (settings : Settings) (l : Listing) :
    (l.image settings).current.hasRoom = Row.hasRoom settings l.rows := by
  funext n
  rw [image, Image.current_parted, Segment.hasRoom_parted, Row.length_reservedIn]
  rfl

end Listing

/-! ### Statements -/

namespace Layout

section Statements

variable (base : Section → Word) (done : Section → List UInt8) (active : Section)
  (names : SymbolTable)

/-- What a statement leaves in the first pass, with the given plan. -/
def Leaves (step : Step) (address : Word) (plan : Plan) (names' : SymbolTable) : Prop :=
  step.plan = plan ∧ step.image =
    .parted base (appendAt active (plan.reserved address) done) (fun _ => []) (plan.next active)
      names'

/-- A statement without a plan leaves the bytes as they are. -/
theorem leaves_nothing {step : Step} {names' : SymbolTable} (address : Word)
    (hplan : step.plan = .nothing)
    (himage : step.image = .parted base done (fun _ => []) active names') :
    Leaves base done active step address .nothing names' := by
  refine ⟨hplan, ?_⟩
  rw [himage, Plan.reserved, appendAt_nil]
  rfl

theorem leaves_bindConstant (name : String) (value : List Token) (address : Word)
    (haddress : address = base active + BitVec.ofNat 32 (done active).length) :
    Leaves base done active
      (bindConstant (.parted base done (fun _ => []) active names) name value) address .nothing
      (Listing.namesAfter names address .nothing (some (.constant name value))) := by
  simp only [bindConstant, Listing.namesAfter]
  rw [Image.address_parted, Image.symbols_parted, ← haddress]
  split
  · next hempty =>
    have hnil : value = [] := List.isEmpty_iff.1 hempty
    subst hnil
    rw [Expr.evalTokens_nil]
    exact leaves_nothing base done active address rfl rfl
  · cases Expr.evalTokens names address value with
    | error cause => exact leaves_nothing base done active address rfl rfl
    | ok v =>
      cases v with
      | none => exact leaves_nothing base done active address rfl rfl
      | some v =>
        simp only [SymbolTable.tryDefine]
        cases names.define name v none with
        | ok symbols => exact leaves_nothing base done active address rfl rfl
        | error cause => exact leaves_nothing base done active address rfl rfl

theorem leaves_placeInstruction (isa : Isa) (name : String) (args : List Token) (address : Word)
    (hasRoom : Nat → Bool)
    (hroom : (Image.parted base done (fun _ => []) active names).current.hasRoom = hasRoom) :
    Leaves base done active
      (placeInstruction isa (.parted base done (fun _ => []) active names) name args) address
      (Listing.plan isa names address hasRoom (some (.instruction name args))) names := by
  unfold placeInstruction
  simp only [Listing.plan, hroom]
  cases Mnemonic.select isa name (Line.splitArgs args).length with
  | error problem => exact leaves_nothing base done active address rfl rfl
  | ok m =>
    by_cases h : hasRoom m.size = true
    · simp only [h, if_true]
      refine ⟨rfl, ?_⟩
      rw [Image.skip_parted _ (Or.inl rfl), dropAt_nil]
      rfl
    · simp only [h]
      exact leaves_nothing base done active address rfl rfl

theorem leaves_placeDirective (isa : Isa) (name : String) (args : List Token) (address : Word)
    (haddress : address = base active + BitVec.ofNat 32 (done active).length)
    (hasRoom : Nat → Bool)
    (hroom : (Image.parted base done (fun _ => []) active names).current.hasRoom = hasRoom) :
    Leaves base done active
      (placeDirective (.parted base done (fun _ => []) active names) name args) address
      (Listing.plan isa names address hasRoom (some (.directive name args)))
      (Listing.namesAfter names address
        (Listing.plan isa names address hasRoom (some (.directive name args)))
        (some (.directive name args))) := by
  simp only [placeDirective, Listing.plan, Listing.namesAfter, hroom, Image.sizeOf_eq_length,
    Image.symbols_parted, Image.address_parted, ← haddress]
  rcases Directive.read names address name args with ⟨d, problems⟩
  cases d with
  | none => exact leaves_nothing base done active address rfl rfl
  | some d =>
    by_cases h : hasRoom (d.bytes address).length = true
    · simp only [h, if_true]
      refine ⟨rfl, ?_⟩
      rw [Image.execute_parted d (Or.inl rfl), dropAt_nil, ← haddress]
      cases d <;> rfl
    · simp only [h]
      exact leaves_nothing base done active address rfl rfl

/-- A statement leaves what its plan says. -/
theorem leaves_placeStatement (isa : Isa) (statement : Option Statement) (address : Word)
    (haddress : address = base active + BitVec.ofNat 32 (done active).length)
    (hasRoom : Nat → Bool)
    (hroom : (Image.parted base done (fun _ => []) active names).current.hasRoom = hasRoom) :
    Leaves base done active
      (placeStatement isa (.parted base done (fun _ => []) active names) statement) address
      (Listing.plan isa names address hasRoom statement)
      (Listing.namesAfter names address (Listing.plan isa names address hasRoom statement)
        statement) := by
  rcases statement with _ | ⟨name, args⟩ | ⟨name, args⟩ | ⟨name, value⟩
  · exact leaves_nothing base done active address rfl rfl
  · have hplan : ∀ plan : Plan, plan = Listing.plan isa names address hasRoom
        (some (.instruction name args)) →
        Listing.namesAfter names address plan (some (.instruction name args)) = names := by
      rintro plan rfl
      simp only [Listing.plan]
      split
      · split <;> rfl
      · rfl
    rw [hplan _ rfl]
    exact leaves_placeInstruction base done active names isa name args address hasRoom hroom
  · exact leaves_placeDirective base done active names isa name args address haddress hasRoom hroom
  · exact leaves_bindConstant base done active names name value address haddress

end Statements

/-! ### Lines -/

theorem bindLabel_fst (image : Image) (label : Option String) :
    (bindLabel image label).1 =
      { image with
        symbols := Listing.labelled image.symbols image.active image.address label } := by
  cases label with
  | none => rfl
  | some name =>
    simp only [bindLabel, Listing.labelled, SymbolTable.tryDefine]
    cases image.symbols.define name image.address (some image.active) with
    | ok symbols => rfl
    | error cause => rfl

/-- A line is its label and then its statement. -/
theorem placeLine_eq (isa : Isa) (image : Image) (line : Line) :
    placeLine isa image line =
      ((placeStatement isa (bindLabel image line.label).1 line.statement).image,
        { line, place := image.active, address := image.address
          plan := (placeStatement isa (bindLabel image line.label).1 line.statement).plan
          problems := (bindLabel image line.label).2 ++
            (placeStatement isa (bindLabel image line.label).1 line.statement).problems
          bound := (placeStatement isa (bindLabel image line.label).1 line.statement).bound }) :=
  rfl

end Layout

/-- The row of a placed line. -/
def Placed.row (p : Placed) : Row := ⟨p.line, p.place, p.address, p.plan⟩

namespace Listing

variable (settings : Settings)

/-- The image of a listing with one more line. -/
theorem image_add (l : Listing) (line : Line) :
    (l.add settings line).image settings =
      .parted settings.base
        (appendAt (Row.active l.rows)
          ((l.row settings line).plan.reserved (l.row settings line).address)
          (Row.reservedIn l.rows))
        (fun _ => []) ((l.row settings line).plan.next (Row.active l.rows))
        (namesAfter (l.known settings line) (l.row settings line).address
          (l.row settings line).plan line.statement) := by
  rw [image, add, Row.reservedIn_concat, Row.active_concat]
  rfl

/-- Placing a line enters it. -/
theorem placeLine_image (l : Listing) (line : Line) :
    (Layout.placeLine settings.isa (l.image settings) line).1 =
      (l.add settings line).image settings ∧
    (Layout.placeLine settings.isa (l.image settings) line).2.row = l.row settings line := by
  have haddress := l.address_image settings
  have hlabelled : (Layout.bindLabel (l.image settings) line.label).1 =
      .parted settings.base (Row.reservedIn l.rows) (fun _ => []) (Row.active l.rows)
        (l.known settings line) := by
    rw [Layout.bindLabel_fst, haddress]
    rfl
  obtain ⟨hplan, himage⟩ := Layout.leaves_placeStatement settings.base
    (Row.reservedIn l.rows) (Row.active l.rows) (l.known settings line) settings.isa
    line.statement (Row.nextAddress settings l.rows)
    (by rw [Row.length_reservedIn]; rfl) (Row.hasRoom settings l.rows)
    (l.hasRoom_image settings)
  rw [← hlabelled] at hplan himage
  refine ⟨?_, ?_⟩
  · rw [Layout.placeLine_eq, himage, image_add]
    rfl
  · rw [Layout.placeLine_eq, Placed.row, haddress, hplan]
    rfl

/-- The first pass enters the lines. -/
theorem placeLines_image : ∀ (lines : List Line) (l : Listing),
    (Layout.placeLines settings.isa (l.image settings) lines).1 =
      (lines.foldl (add settings) l).image settings ∧
    (lines.foldl (add settings) l).rows =
      l.rows ++ (Layout.placeLines settings.isa (l.image settings) lines).2.map (·.row)
  | [], l => ⟨rfl, by simp [Layout.placeLines]⟩
  | line :: lines, l => by
    obtain ⟨himage, hrow⟩ := placeLine_image settings l line
    obtain ⟨hlast, hrest⟩ := placeLines_image lines (l.add settings line)
    simp only [Layout.placeLines, List.foldl_cons, himage]
    refine ⟨hlast, ?_⟩
    rw [hrest, List.map_cons, hrow, add, List.append_assoc, List.singleton_append]

/-- The first pass over a source makes its listing. -/
theorem placeLines_start (lines : List Line) :
    (Layout.placeLines settings.isa (.start settings) lines).1 =
      (ofLines settings lines).image settings ∧
    (Layout.placeLines settings.isa (.start settings) lines).2.map (·.row) =
      (ofLines settings lines).rows := by
  obtain ⟨himage, hrows⟩ := placeLines_image settings lines empty
  rw [image_empty] at himage hrows
  exact ⟨himage, hrows.symm⟩

end Listing

end Mips
