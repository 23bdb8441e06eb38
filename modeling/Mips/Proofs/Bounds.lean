import Mips.Proofs.Reading
import Mips.Proofs.Relocation
import Mips.Proofs.Report

/-!
# Addresses do not wrap around

A line is placed only if its bytes end at or below the last address. So wherever the two passes are,
also between a label and its statement or between two words of an instruction, both cursors stand on
an address and have no gap before them (`Reached`, `bounded_of_reached`). Addresses that are worked
out from a cursor are then exact, and data goes where the cursor is. A line for which there is no
room is left out by both passes, with the one problem that says so.
-/

namespace Mips

/-! ### Segments -/

namespace Segment

/-- The cursor stands on an address, and the bytes reach up to it. -/
structure Bounded (s : Segment) : Prop where
  inside : s.cursor ≤ s.bytes.size
  below : s.base.toNat + s.cursor ≤ 0xffffffff

/-- What depends on the cursor is exact. -/
structure Exact (s : Segment) : Prop extends Bounded s where
  address : s.address.toNat = s.base.toNat + s.cursor
  /-- Data replaces as many bytes at the cursor, and is added behind the last byte. -/
  write : ∀ data, (s.write data).bytes.toList =
    s.bytes.toList.take s.cursor ++ data ++ s.bytes.toList.drop (s.cursor + data.length)

theorem bounded_parted {base : Word} {done : List UInt8} (rest : List UInt8)
    (h : base.toNat + done.length ≤ 0xffffffff) : (parted base done rest).Bounded := by
  refine ⟨?_, h⟩
  rw [cursor_parted, bytes_parted, List.size_toArray, List.length_append]
  exact Nat.le_add_right _ _

theorem Bounded.eq_parted {s : Segment} (h : s.Bounded) :
    s = parted s.base (s.bytes.toList.take s.cursor) (s.bytes.toList.drop s.cursor) := by
  rcases s with ⟨base, bytes, cursor⟩
  have hlength : (bytes.toList.take cursor).length = cursor :=
    List.length_take_of_le h.inside
  rw [parted, List.take_append_drop, hlength, Array.toArray_toList]

theorem Bounded.exact {s : Segment} (h : s.Bounded) : s.Exact := by
  refine ⟨h, ?_, fun data => ?_⟩
  · exact toNat_address h.below
  · have hwrite := congrArg (·.write data) h.eq_parted
    rw [write_parted, List.drop_drop] at hwrite
    rw [hwrite, bytes_parted]

theorem hasRoom_eq_false {s : Segment} {n : Nat} :
    s.hasRoom n = false ↔ 0xffffffff < s.base.toNat + s.cursor + n := by
  rw [hasRoom, decide_eq_false_iff_not, Nat.not_le]

end Segment

/-! ### Every image on the way -/

/-- The images that the two passes over `lines` go through. -/
inductive Reached (settings : Settings) (lines : List Line) : Image → Prop where
  /-- Between two lines of the first pass. -/
  | placing {before after : List Line} (hsplit : lines = before ++ after) :
    Reached settings lines (Layout.imageOf settings before)
  /-- Between the label of a line and its statement. -/
  | labelling {before : List Line} {line : Line} {after : List Line}
    (hsplit : lines = before ++ line :: after) :
    Reached settings lines (Layout.bindLabel (Layout.imageOf settings before) line.label).1
  /-- Between two lines of the second pass. -/
  | realizing {first rest : List Placed} {image : Image} {realized : List Realized}
    (hsplit : (Layout.placeLines settings.isa (.start settings) lines).2 = first ++ rest)
    (hrun : Realization.realizeLines settings.isa (Layout.imageOf settings lines).rewind first =
      .ok (image, realized)) :
    Reached settings lines image
  /-- Between two words of an instruction. -/
  | writing {first : List Placed} {p : Placed} {rest : List Placed} {image : Image}
    {realized : List Realized} {m : Mnemonic} {args : List Token} {e : Encoding} (n : Nat)
    (hsplit : (Layout.placeLines settings.isa (.start settings) lines).2 = first ++ p :: rest)
    (hrun : Realization.realizeLines settings.isa (Layout.imageOf settings lines).rewind first =
      .ok (image, realized))
    (hplan : p.plan = .instruction m args)
    (hencoding : Encoding.ofStatement settings.isa image.symbols image.address m.name args =
      .ok e) :
    Reached settings lines (Realization.writeWords image (e.words.take n))

namespace Layout

theorem segment_bindLabel (image : Image) (label : Option String) (place : Section) :
    (bindLabel image label).1.segment place = image.segment place := by
  rw [bindLabel_fst]
  cases place <;> rfl

theorem active_bindLabel (image : Image) (label : Option String) :
    (bindLabel image label).1.active = image.active := by
  rw [bindLabel_fst]

end Layout

theorem Row.sizeIn_append (place : Section) (rows rows' : List Row) :
    sizeIn place (rows ++ rows') = sizeIn place rows + sizeIn place rows' := by
  simp [sizeIn]

section Reached

variable {settings : Settings} {lines : List Line}

theorem Listing.bounded_image (place : Section) :
    (((ofLines settings lines).image settings).segment place).Bounded := by
  rw [Listing.image, Image.segment_parted]
  refine Segment.bounded_parted _ ?_
  rw [Row.length_reservedIn]
  exact base_add_sizeIn_le settings lines place

/-- The rows of the placed lines, and how many bytes the first of them have in the second pass. -/
theorem Listing.length_bytesIn_first {first rest : List Placed} {names : SymbolTable}
    (h : (Layout.placeLines settings.isa (.start settings) lines).2 = first ++ rest)
    (place : Section) :
    (ofLines settings lines).rows = first.map (·.row) ++ rest.map (·.row) ∧
      (Row.bytesIn settings.isa names place (first.map (·.row))).length =
        Row.sizeIn place (first.map (·.row)) := by
  obtain ⟨-, hrows⟩ := placeLines_start settings lines
  rw [h, List.map_append] at hrows
  refine ⟨hrows.symm, Row.length_bytesIn (fun row hrow => ?_) _ _⟩
  exact selected_of_mem (hrows ▸ List.mem_append_left _ hrow)

theorem Realization.bounded_between {first rest : List Placed}
    (h : (Layout.placeLines settings.isa (.start settings) lines).2 = first ++ rest)
    (place : Section) :
    ((Row.between settings (Listing.ofLines settings lines).names (first.map (·.row))
      (rest.map (·.row))).segment place).Bounded := by
  obtain ⟨hrows, hlength⟩ := Listing.length_bytesIn_first h place
  have hlimit := Listing.base_add_sizeIn_le settings lines place
  rw [hrows, Row.sizeIn_append] at hlimit
  rw [Row.between, Image.segment_parted]
  refine Segment.bounded_parted _ ?_
  rw [hlength]
  omega

/-- Also between the words of an instruction the cursor is within its room. -/
theorem Realization.bounded_writeWords {first : List Placed} {p : Placed} {rest : List Placed}
    {m : Mnemonic} {args : List Token} {words : List Instruction}
    (h : (Layout.placeLines settings.isa (.start settings) lines).2 = first ++ p :: rest)
    (hplan : p.plan = .instruction m args) (hwords : words.length ≤ m.length) (place : Section) :
    ((writeWords (Row.between settings (Listing.ofLines settings lines).names
      (first.map (·.row)) ((p :: rest).map (·.row))) words).segment place).Bounded := by
  obtain ⟨hrows, hlength⟩ := Listing.length_bytesIn_first h place
  have hstands := Listing.stands_of_split hrows
  have hlimit := Listing.base_add_sizeIn_le settings lines place
  rw [hrows, Row.sizeIn_append] at hlimit
  have hsize : p.row.size = 4 * m.length := by
    rw [Row.size, Placed.row, hplan]
    rfl
  rw [Row.between, writeWords_parted, Image.segment_parted]
  refine Segment.bounded_parted _ ?_
  by_cases hplace : place = Row.active (first.map (·.row))
  · have hroom := hstands.room
    rw [hstands.place, ← hplace, hsize] at hroom
    rw [appendAt, if_pos hplace, List.length_append, hlength, Mnemonic.length_flatMap_bytes]
    omega
  · rw [appendAt, if_neg hplace, hlength]
    omega

theorem bounded_of_reached {image : Image} (h : Reached settings lines image) (place : Section) :
    (image.segment place).Bounded := by
  cases h with
  | placing hsplit =>
    rw [Layout.imageOf_eq]
    exact Listing.bounded_image place
  | labelling hsplit =>
    rw [Layout.segment_bindLabel, Layout.imageOf_eq]
    exact Listing.bounded_image place
  | realizing hsplit hrun =>
    have hbetween := hrun.symm.trans (realizeLines_rewind settings lines _ _ hsplit)
    rw [(Prod.mk.inj (Except.ok.inj hbetween)).1]
    exact Realization.bounded_between hsplit place
  | @writing first p rest _ _ m args e n hsplit hrun hplan hencoding =>
    have hbetween := hrun.symm.trans (realizeLines_rewind settings lines _ _ hsplit)
    have hselected : p.row.Selected settings.isa := Listing.selected_of_mem
      (Layout.row_mem_rows settings (hsplit ▸ List.mem_append_right _ List.mem_cons_self))
    obtain ⟨b, -, rfl⟩ := Encoding.ofStatement_eq_ok (hselected m args hplan) hencoding
    rw [(Prod.mk.inj (Except.ok.inj hbetween)).1]
    refine Realization.bounded_writeWords hsplit hplan ?_ place
    rw [List.length_take, Mnemonic.length_words]
    exact Nat.min_le_right _ _

/-- Every address in an instruction, and the one behind it, is worked out exactly. -/
theorem toNat_address_add {row : Row} {m : Mnemonic} {args : List Token}
    (hrow : row ∈ (Listing.ofLines settings lines).rows) (hplan : row.plan = .instruction m args)
    {k : Nat} (hk : k ≤ m.size) :
    (row.address + BitVec.ofNat 32 k).toNat = row.address.toNat + k := by
  obtain ⟨before, after, -, hstands⟩ := Listing.stands_of_mem hrow
  have hroom := hstands.room
  have haddress := hstands.toNat_address
  have hsize : row.size = m.size := by
    rw [Row.size, hplan]
    rfl
  rw [BitVec.toNat_add, BitVec.toNat_ofNat, Nat.add_mod_mod, Nat.mod_eq_of_lt (by omega)]

end Reached

/-! ### Lines without room -/

namespace Layout

/-- How many bytes a statement asks for, if it is accepted. -/
def demand? (isa : Isa) (image : Image) : Option Statement → Option Nat
  | some (.instruction name args) =>
    match Mnemonic.select isa name (Line.splitArgs args).length with
    | .ok m => some m.size
    | .error _ => none
  | some (.directive name args) =>
    (Directive.read image.symbols image.address name args).1.map image.sizeOf
  | some (.constant _ _) | none => none

variable {isa : Isa} {image : Image} {statement : Option Statement}

/-- A statement passes the last address if it asks for more bytes than there is room for. -/
theorem overflow_mem_placeStatement {place : Section} :
    .overflow place ∈ (placeStatement isa image statement).problems ↔
      place = image.active ∧ ∃ n, demand? isa image statement = some n ∧
        image.current.hasRoom n = false := by
  rcases statement with _ | ⟨name, args⟩ | ⟨name, args⟩ | ⟨name, value⟩
  · simp [placeStatement, demand?]
  · simp only [placeStatement, placeInstruction, demand?]
    cases hselect : Mnemonic.select isa name (Line.splitArgs args).length with
    | error problem =>
      have hmnemonic := Mnemonic.refusesMnemonic_of_select hselect
      have hother : Problem.overflow place ≠ problem := by
        rintro rfl
        simp [Problem.refusesMnemonic] at hmnemonic
      simp [hother]
    | ok m =>
      cases hroom : image.current.hasRoom m.size with
      | true => simp [hroom]
      | false => simp [hroom]
  · have hread : .overflow place ∉ (Directive.read image.symbols image.address name args).2 :=
      fun hmem => by simpa [Problem.isLate] using Directive.isLate_read _ _ name args _ hmem
    simp only [placeStatement, placeDirective, demand?]
    rcases hdirective : Directive.read image.symbols image.address name args with ⟨d, problems⟩
    rw [hdirective] at hread
    dsimp only at hread
    cases d with
    | none => simpa using hread
    | some d =>
      cases hroom : image.current.hasRoom (image.sizeOf d) with
      | true => simp [hroom, hread]
      | false => simp [hroom, hread]
  · simp only [placeStatement, bindConstant, demand?]
    split
    · simp
    · split
      · simp
      · simp
      · split <;> simp

/-- A statement without room changes nothing and leaves nothing to do. -/
theorem placeStatement_of_overflow {n : Nat} (hdemand : demand? isa image statement = some n)
    (hroom : image.current.hasRoom n = false) :
    (placeStatement isa image statement).image = image ∧
      (placeStatement isa image statement).plan = .nothing := by
  rcases statement with _ | ⟨name, args⟩ | ⟨name, args⟩ | ⟨name, value⟩
  · simp [demand?] at hdemand
  · simp only [demand?] at hdemand
    simp only [placeStatement, placeInstruction]
    split at hdemand
    · next m hselect =>
      obtain rfl := Option.some.inj hdemand
      simp [hselect, hroom]
    · simp at hdemand
  · simp only [demand?, Option.map_eq_some_iff] at hdemand
    obtain ⟨d, hread, rfl⟩ := hdemand
    simp only [placeStatement, placeDirective]
    rcases hdirective : Directive.read image.symbols image.address name args with ⟨d', problems⟩
    rw [hdirective] at hread
    obtain rfl : d' = some d := hread
    simp [hroom]
  · simp [demand?] at hdemand

end Layout

/-- The line adds no bytes, and neither pass does anything for its statement; `first` are the lines
that were placed before it. -/
structure Placed.LeftOut (settings : Settings) (lines : List Line) (first : List Placed)
    (p : Placed) : Prop where
  plan : p.plan = .nothing
  bytes : ∀ names, p.row.bytes settings.isa names = []
  cursors : ∀ place, (Layout.imageOf settings (first.map (·.line) ++ [p.line])).segment place =
    (Layout.imageOf settings (first.map (·.line))).segment place
  /-- Of the whole line, only the label is entered. -/
  placing : Layout.imageOf settings (first.map (·.line) ++ [p.line]) =
    (Layout.bindLabel (Layout.imageOf settings (first.map (·.line))) p.line.label).1
  /-- The second pass comes to the line and leaves it as it came. -/
  realizing : ∃ reached done,
    Realization.realizeLines settings.isa (Layout.imageOf settings lines).rewind first =
      .ok (reached, done) ∧
    Realization.realizeLine settings.isa reached p = .ok (reached, { line := p.line.number })

theorem Layout.leftOut_of_overflow {settings : Settings} {lines : List Line}
    {first : List Placed} {p : Placed} {rest : List Placed} {n : Nat}
    (h : (placeLines settings.isa (.start settings) lines).2 = first ++ p :: rest)
    (hdemand : demand? settings.isa
      (bindLabel (imageOf settings (first.map (·.line))) p.line.label).1 p.line.statement = some n)
    (hroom : (bindLabel (imageOf settings (first.map (·.line))) p.line.label).1.current.hasRoom n =
      false) : p.LeftOut settings lines first := by
  obtain ⟨himage, hplan⟩ := placeStatement_of_overflow hdemand hroom
  obtain ⟨-, hp⟩ := placed_of_split settings h
  have hnothing : p.plan = .nothing := by
    rw [hp]
    exact hplan
  have hlabel : imageOf settings (first.map (·.line) ++ [p.line]) =
      (bindLabel (imageOf settings (first.map (·.line))) p.line.label).1 := by
    rw [imageOf_append]
    exact himage
  refine ⟨hnothing, fun names => ?_, fun place => ?_, hlabel, ?_⟩
  · rw [Row.bytes, Placed.row, hnothing]
    rfl
  · rw [hlabel, segment_bindLabel]
  · obtain ⟨reached, done, hrun, hplace, haddress⟩ :=
      (agrees_placeLines settings lines).met first p rest h
    refine ⟨reached, done, hrun, ?_⟩
    rw [Realization.realizeLine, if_pos ⟨hplace, haddress⟩, hnothing]

/-- A line is reported to pass the last address exactly if its statement asks for more bytes than
there is room for. -/
theorem Assembly.overflow_mem_diagnostics {source : String} {settings : Settings} {a : Assembly}
    (h : assemble source settings = .ok a) {before : List Line} {line : Line} {after : List Line}
    (hsplit : (Source.read source).lines = before ++ line :: after)
    (hselected : (Layout.placedAfter settings before line).row.Selected settings.isa)
    (place : Section) :
    ⟨line.number, .overflow place⟩ ∈ a.diagnostics ↔
      .overflow place ∈ (Layout.placeStatement settings.isa
        (Layout.bindLabel (Layout.imageOf settings before) line.label).1
        line.statement).problems := by
  obtain ⟨text, undefined, -, hundefined, hproblems⟩ := problemsAt_assemble h hsplit
  have hread : Problem.overflow place ∉ (Line.read line.number text).2 := fun hmem => by
    simpa [Problem.isLate] using Line.isLate_read _ text _ hmem
  have hlabel : Problem.overflow place ∉
      (Layout.bindLabel (Layout.imageOf settings before) line.label).2 := by
    intro hmem
    obtain ⟨name, cause, hduplicate⟩ := Layout.duplicate_of_mem_bindLabel hmem
    simp at hduplicate
  have hrealized : Problem.overflow place ∉ ((Layout.placedAfter settings before line).row.realized
      settings.isa a.module.symbols).problems := by
    intro hmem
    rcases Row.problem_realized hselected _ _ hmem with hoperand | ⟨field, n, hcut⟩
    · simp [Problem.blamesOperand] at hoperand
    · simp at hcut
  have hlast : Problem.overflow place ∉ undefined := by
    intro hmem
    obtain ⟨name, hname⟩ := hundefined _ hmem
    simp at hname
  have hplaced : (Layout.placedAfter settings before line).problems =
      (Layout.bindLabel (Layout.imageOf settings before) line.label).2 ++
        (Layout.placeStatement settings.isa
          (Layout.bindLabel (Layout.imageOf settings before) line.label).1
          line.statement).problems := rfl
  rw [← mem_problemsAt, hproblems, hplaced]
  simp only [List.mem_append, hread, hlabel, hrealized, hlast, false_or, or_false]

/-- Wherever the passes are, both cursors stand on an address, and what is worked out from them is
exact. An accepted statement is reported to pass the last address exactly if it would, and is then
left out by both passes. -/
theorem bounds_assemble (source : String) (settings : Settings) :
    let lines := (Source.read source).lines
    let placed := (Layout.placeLines settings.isa (.start settings) lines).2
    ∃ a, assemble source settings = .ok a ∧
      (∀ image, Reached settings lines image → ∀ place, (image.segment place).Exact) ∧
      (∀ p ∈ placed, ∀ m args, p.plan = .instruction m args → 4 * m.fieldIndex < m.size ∧
        ∀ k ≤ m.size, (p.address + BitVec.ofNat 32 k).toNat = p.address.toNat + k) ∧
      ∀ first p rest, placed = first ++ p :: rest →
        let image :=
          (Layout.bindLabel (Layout.imageOf settings (first.map (·.line))) p.line.label).1
        (∀ place, ⟨p.line.number, .overflow place⟩ ∈ a.diagnostics ↔
          place = p.place ∧ ∃ n, Layout.demand? settings.isa image p.line.statement = some n ∧
            0xffffffff < image.current.base.toNat + image.current.cursor + n) ∧
        ∀ place, ⟨p.line.number, .overflow place⟩ ∈ a.diagnostics →
          p.LeftOut settings lines first := by
  intro lines placed
  obtain ⟨trace, hassemble⟩ := assemble_eq source settings rfl
  refine ⟨_, hassemble, fun image h place => (bounded_of_reached h place).exact, ?_, ?_⟩
  · intro p hp m args hplan
    have hrow := Layout.row_mem_rows settings hp
    have hselect := Listing.selected_of_mem hrow m args hplan
    refine ⟨?_, fun k hk => toNat_address_add hrow hplan hk⟩
    exact Nat.mul_lt_mul_of_pos_left (Mnemonic.fieldIndex_lt_length m
      (Mnemonic.mem_table_of_select hselect)) (by decide)
  · intro first p rest hsplit image
    obtain ⟨hlines, hp⟩ := Layout.placed_of_split settings hsplit
    have hmem : p ∈ placed := hsplit ▸ List.mem_append_right _ List.mem_cons_self
    have hselected : p.row.Selected settings.isa :=
      Listing.selected_of_mem (Layout.row_mem_rows settings hmem)
    have hplace : p.place = image.active := by
      rw [hp]
      exact (Layout.active_bindLabel ..).symm
    have hoverflow := Assembly.overflow_mem_diagnostics hassemble hlines (hp ▸ hselected)
    simp only [hoverflow, Layout.overflow_mem_placeStatement, Segment.hasRoom_eq_false, hplace]
    refine ⟨fun place => Iff.rfl, ?_⟩
    rintro place ⟨-, n, hdemand, hpasses⟩
    exact Layout.leftOut_of_overflow hsplit hdemand (Segment.hasRoom_eq_false.2 hpasses)

/-- Where the first of two instructions ends right below the last address, the second is left
out. -/
theorem second_nop_left_out :
    ∃ (a : Assembly) (first : List Placed) (p : Placed),
      assemble "nop\nnop" { textBase := 0xfffffff8 } = .ok a ∧
      (Layout.placeLines .mips32 (.start { textBase := 0xfffffff8 })
        (Source.read "nop\nnop").lines).2 = first ++ [p] ∧
      ⟨2, .overflow .text⟩ ∈ a.diagnostics ∧
      p.LeftOut { textBase := 0xfffffff8 } (Source.read "nop\nnop").lines first := by
  obtain ⟨a, ha, -, -, hlines⟩ := bounds_assemble "nop\nnop" { textBase := 0xfffffff8 }
  let nop : Plan := .instruction (.real "nop" (.register 0) []) []
  obtain ⟨hreported, hleft⟩ := hlines
    [⟨⟨1, none, some (.instruction "nop" [])⟩, .text, 0xfffffff8, nop, [], none⟩]
    ⟨⟨2, none, some (.instruction "nop" [])⟩, .text, 0xfffffffc, .nothing, [.overflow .text], none⟩
    [] (by decide +kernel)
  have hoverflow := (hreported .text).2 ⟨rfl, 4, by decide +kernel, by decide +kernel⟩
  exact ⟨a, _, _, ha, by decide +kernel, hoverflow, hleft .text hoverflow⟩

end Mips
