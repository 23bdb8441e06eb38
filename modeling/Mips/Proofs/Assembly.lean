import Mips.Proofs.Diagnostic
import Mips.Proofs.Operand
import Mips.Proofs.Realization

/-!
# Assembling is making a listing

The first pass makes the listing of a source and the second one fills it, so a source and its
settings decide about the module without any buffer or cursor (`assemble_eq`). No check between the
passes can fail: every line is met again where it was placed (`passes_agree`). The bytes of a module
are those of its rows, one after the other (`bytes_assemble`).

    source ──▶ lines ──▶ listing ──▶ bytes, symbols, relocations
                 │          ▲
                 └─ passes ─┘
-/

namespace Mips

/-! ### Both passes -/

namespace Listing

/-- The module that a listing describes. -/
def module (settings : Settings) (l : Listing) : Module :=
  { textBase := settings.textBase, dataBase := settings.dataBase
    text := (Row.bytesIn settings.isa l.names .text l.rows).toArray
    data := (Row.bytesIn settings.isa l.names .data l.rows).toArray
    symbols := l.names
    relocations := l.rows.filterMap fun row => (row.realized settings.isa l.names).relocation }

theorem bytes_module (settings : Settings) (l : Listing) (place : Section) :
    ((l.module settings).bytes place).toList = Row.bytesIn settings.isa l.names place l.rows := by
  cases place <;> rfl

theorem base_module (settings : Settings) (l : Listing) (place : Section) :
    (l.module settings).base place = settings.base place := by cases place <;> rfl

theorem rewind_image (settings : Settings) (l : Listing) :
    (l.image settings).rewind = Row.between settings l.names [] l.rows := by
  simp only [image, Image.rewind, Image.parted, Row.between, Segment.rewind_parted]
  simp [Row.bytesIn, Row.active]

theorem toModule_between (settings : Settings) (l : Listing) :
    (Row.between settings l.names l.rows []).toModule
        (l.rows.filterMap fun row => (row.realized settings.isa l.names).relocation) =
      l.module settings := by
  simp [Row.between, Image.toModule, Image.parted, module, Row.reservedIn, Settings.base]

end Listing

section Passes

variable (settings : Settings) (lines : List Line)

/-- The second pass from the start, over the first of the placed lines. -/
theorem realizeLines_rewind (first rest : List Placed)
    (h : (Layout.placeLines settings.isa (.start settings) lines).2 = first ++ rest) :
    Realization.realizeLines settings.isa
        (Layout.placeLines settings.isa (.start settings) lines).1.rewind first =
      .ok (Row.between settings (Listing.ofLines settings lines).names (first.map (·.row))
          (rest.map (·.row)),
        first.map fun p => p.row.realized settings.isa (Listing.ofLines settings lines).names) := by
  obtain ⟨himage, hrows⟩ := Listing.placeLines_start settings lines
  rw [h, List.map_append] at hrows
  rw [himage, Listing.rewind_image, ← hrows]
  exact Realization.realizeLines_between (fun before row after => Listing.stands_of_split) first []
    (rest.map (·.row)) hrows.symm

/-- The second pass over all the placed lines. -/
theorem realizeLines_whole :
    Realization.realizeLines settings.isa
        (Layout.placeLines settings.isa (.start settings) lines).1.rewind
        (Layout.placeLines settings.isa (.start settings) lines).2 =
      .ok (Row.between settings (Listing.ofLines settings lines).names
          (Listing.ofLines settings lines).rows [],
        (Listing.ofLines settings lines).rows.map
          (·.realized settings.isa (Listing.ofLines settings lines).names)) := by
  obtain ⟨-, hrows⟩ := Listing.placeLines_start settings lines
  rw [realizeLines_rewind settings lines _ [] (List.append_nil _).symm, ← hrows, List.map_map]
  rfl

theorem size_between (place : Section) :
    ((Row.between settings (Listing.ofLines settings lines).names
        (Listing.ofLines settings lines).rows []).segment place).bytes.size =
      (((Listing.ofLines settings lines).image settings).segment place).bytes.size := by
  have hselected : ∀ row ∈ (Listing.ofLines settings lines).rows, row.Selected settings.isa :=
    fun row => Listing.selected_of_mem
  rw [Row.between, Listing.image, Image.segment_parted, Image.segment_parted, Segment.bytes_parted,
    Segment.bytes_parted, List.size_toArray, List.size_toArray, List.append_nil,
    List.length_append, Row.length_bytesIn hselected, Row.length_reservedIn, Row.length_reservedIn]
  rfl

end Passes

/-- What assembling a source gives is what its listing describes. -/
theorem assemble_eq (source : String) (settings : Settings) {l : Listing}
    (hl : l = Listing.ofLines settings (Source.read source).lines) :
    ∃ trace, assemble source settings = .ok
      { module := l.module settings
        diagnostics := Diagnostic.byLine
          ((Source.read source).diagnostics ++
            (Layout.placeLines settings.isa (.start settings) (Source.read source).lines).2.flatMap
              (·.diagnostics) ++
            l.rows.flatMap (fun row => (row.realized settings.isa l.names).diagnostics) ++
            Assembly.undefinedSymbols l.names (l.rows.map (·.realized settings.isa l.names)))
        trace } := by
  subst hl
  generalize hread : Source.read source = read
  obtain ⟨himage, -⟩ := Listing.placeLines_start settings read.lines
  have hsize : ∀ place, Assembly.checkSize
      (Layout.placeLines settings.isa (.start settings) read.lines).1
      (Row.between settings (Listing.ofLines settings read.lines).names
        (Listing.ofLines settings read.lines).rows []) place = .ok () := by
    intro place
    rw [Assembly.checkSize, himage, if_pos (size_between settings read.lines place)]
  unfold assemble
  simp only [hread, realizeLines_whole, hsize, List.filterMap_map, List.flatMap_map, bind,
    Except.bind, pure, Except.pure, Function.comp_def, Listing.toModule_between]
  exact ⟨_, rfl⟩

theorem exists_assembly (source : String) (settings : Settings) :
    ∃ a, assemble source settings = .ok a := by
  obtain ⟨trace, hassemble⟩ := assemble_eq source settings rfl
  exact ⟨_, hassemble⟩

theorem module_assemble {source : String} {settings : Settings} {a : Assembly}
    (h : assemble source settings = .ok a) :
    a.module = (Listing.ofLines settings (Source.read source).lines).module settings := by
  obtain ⟨trace, hassemble⟩ := assemble_eq source settings rfl
  rw [← Except.ok.inj (hassemble.symm.trans h)]

/-! ### Agreement of the passes -/

/-- In the second pass a row can only have an operand that is wrong, or a number that is cut. -/
theorem Row.problem_realized {isa : Isa} {row : Row} (h : row.Selected isa) (names : SymbolTable) :
    ∀ problem ∈ (row.realized isa names).problems,
      problem.blamesOperand = true ∨ ∃ field n, problem = .cut field n := by
  intro problem hmem
  cases hplan : row.plan with
  | nothing => simp [realized, hplan] at hmem
  | directive d => simp [realized, hplan] at hmem
  | instruction m args =>
    have hselect := h m args hplan
    simp only [realized, hplan] at hmem
    cases he : Encoding.ofStatement isa names row.address m.name args with
    | error problems =>
      obtain ⟨q, rfl, hblames⟩ := Encoding.ofStatement_error hselect he
      simp only [he, List.mem_singleton] at hmem
      exact Or.inl (hmem ▸ hblames)
    | ok e =>
      obtain ⟨b, hb, rfl⟩ := Encoding.ofStatement_eq_ok hselect he
      simp only [he] at hmem
      rcases Encoding.cut_of_mem_bindAll hb hmem with hnone | hcut
      · simp at hnone
      · exact Or.inr hcut

/-- No row has a problem with its mnemonic in the second pass. -/
theorem Row.refusesMnemonic_realized {isa : Isa} {row : Row} (h : row.Selected isa)
    (names : SymbolTable) :
    ∀ problem ∈ (row.realized isa names).problems, problem.refusesMnemonic = false := by
  intro problem hmem
  rcases Row.problem_realized h names problem hmem with hoperand | ⟨field, n, rfl⟩
  · exact Problem.refusesMnemonic_of_blamesOperand hoperand
  · rfl

/-- The second pass, from `layout` over `placed` to `image` and `realized`, goes the way of the
first. -/
structure Agrees (isa : Isa) (layout : Image) (placed : List Placed) (image : Image)
    (realized : List Realized) : Prop where
  /-- Every line is met in the section and at the address where it was placed. -/
  met : ∀ before p after, placed = before ++ p :: after →
    ∃ reached done, Realization.realizeLines isa layout.rewind before = .ok (reached, done) ∧
      reached.active = p.place ∧ reached.address = p.address
  /-- Both sections keep their length. -/
  size : ∀ place, (image.segment place).bytes.size = (layout.segment place).bytes.size
  /-- Every instruction that got room is selected once more. -/
  selected : ∀ p ∈ placed, ∀ m args, p.plan = .instruction m args →
    Mnemonic.select isa m.name (Line.splitArgs args).length = .ok m
  /-- No mnemonic is refused a second time. -/
  accepted : ∀ r ∈ realized, ∀ problem ∈ r.problems, problem.refusesMnemonic = false
  symbols : image.symbols = layout.symbols

theorem agrees_placeLines (settings : Settings) (lines : List Line) :
    Agrees settings.isa (Layout.placeLines settings.isa (.start settings) lines).1
      (Layout.placeLines settings.isa (.start settings) lines).2
      (Row.between settings (Listing.ofLines settings lines).names
        (Listing.ofLines settings lines).rows [])
      ((Listing.ofLines settings lines).rows.map
        (·.realized settings.isa (Listing.ofLines settings lines).names)) := by
  obtain ⟨himage, hrows⟩ := Listing.placeLines_start settings lines
  have hselected : ∀ row ∈ (Listing.ofLines settings lines).rows, row.Selected settings.isa :=
    fun row => Listing.selected_of_mem
  refine ⟨?_, ?_, ?_, ?_, ?_⟩
  · intro before p after hsplit
    have hsplit' : (Listing.ofLines settings lines).rows =
        before.map (·.row) ++ p.row :: after.map (·.row) := by
      rw [← hrows, hsplit, List.map_append, List.map_cons]
    have hstands := Listing.stands_of_split hsplit'
    refine ⟨_, _, realizeLines_rewind settings lines before (p :: after) hsplit,
      hstands.place.symm, ?_⟩
    -- the rows before are filled to their full size, so the cursor is where the row stands
    rw [Row.between, Image.address_parted]
    refine Realization.address_between hstands fun row hrow => hselected row ?_
    rw [hsplit']
    exact List.mem_append_left _ hrow
  · intro place
    rw [himage, size_between]
  · intro p hp m args hplan
    exact hselected p.row (hrows ▸ List.mem_map_of_mem hp) m args hplan
  · intro r hr
    obtain ⟨row, hrow, rfl⟩ := List.mem_map.1 hr
    exact Row.refusesMnemonic_realized (hselected row hrow) _
  · rw [himage]
    rfl

/-- Assembling always gives a module, and on the way the second pass meets every line where the
first one has placed it. -/
theorem passes_agree (source : String) (settings : Settings) :
    let pass := Layout.placeLines settings.isa (.start settings) (Source.read source).lines
    ∃ a image realized,
      assemble source settings = .ok a ∧
      Realization.realizeLines settings.isa pass.1.rewind pass.2 = .ok (image, realized) ∧
      a.module = image.toModule (realized.filterMap (·.relocation)) ∧
      pass.2.map (·.line) = (Source.read source).lines ∧
      Agrees settings.isa pass.1 pass.2 image realized := by
  intro pass
  obtain ⟨trace, hassemble⟩ := assemble_eq source settings rfl
  obtain ⟨-, hrows⟩ := Listing.placeLines_start settings (Source.read source).lines
  have hpass := realizeLines_whole settings (Source.read source).lines
  refine ⟨_, _, _, hassemble, hpass, ?_, ?_, agrees_placeLines settings _⟩
  · rw [List.filterMap_map, ← Listing.toModule_between]
    rfl
  · have hline := Listing.map_line_rows settings (Source.read source).lines
    rw [← hrows, List.map_map] at hline
    exact hline

/-! ### Bytes and labels -/

/-- A row is laid out behind the rows `before`: right behind their bytes, and with what its
statement means there. -/
structure Row.Laid (settings : Settings) (names : SymbolTable) (before : List Row) (row : Row) :
    Prop where
  place : row.place = active before
  address : row.address.toNat =
    (settings.base row.place).toNat + (bytesIn settings.isa names row.place before).length
  /-- The statement is read with the names of the lines so far, and kept if its bytes have room. -/
  plan : row.plan = Listing.plan settings.isa
    ((Listing.ofLines settings (before.map (·.line))).known settings row.line) row.address
    (fun n => (settings.base row.place).toNat +
      (bytesIn settings.isa names row.place before).length + n ≤ 0xffffffff) row.line.statement

theorem Listing.laid_of_split {settings : Settings} {lines : List Line} {before : List Row}
    {row : Row} {after : List Row} (h : (ofLines settings lines).rows = before ++ row :: after) :
    Row.Laid settings (ofLines settings lines).names before row := by
  have hstands := stands_of_split h
  have hlength : (Row.bytesIn settings.isa (ofLines settings lines).names row.place before).length =
      Row.sizeIn row.place before := by
    refine Row.length_bytesIn (fun row' hrow' => ?_) _ _
    exact selected_of_mem (h ▸ List.mem_append_left _ hrow')
  refine ⟨hstands.place, ?_, ?_⟩
  · rw [hlength, hstands.toNat_address]
  · obtain ⟨l, rfl, hrow, ⟨lines', rfl⟩, -⟩ := rows_split settings lines h
    rw [map_line_rows, hlength, hstands.place, hstands.address, ← hrow]
    rfl

/-- In the first pass a label is refused or bound to the address of its line. -/
theorem Listing.label_placeLines (settings : Settings) {p : Placed} {name : String}
    (hlabel : p.line.label = some name) :
    ∀ (lines : List Line) (l : Listing),
    p ∈ (Layout.placeLines settings.isa (l.image settings) lines).2 →
    (∃ cause, Problem.duplicate .label name cause ∈ p.problems) ∨
      (lines.foldl (add settings) l).names.address? name = some p.address
  | [], l, hp => by simp [Layout.placeLines] at hp
  | line :: lines, l, hp => by
    obtain ⟨himage, -⟩ := placeLine_image settings l line
    simp only [Layout.placeLines, himage] at hp
    rcases List.mem_cons.1 hp with rfl | hp
    · rw [Layout.placeLine_eq] at hlabel ⊢
      dsimp only at hlabel ⊢
      rw [hlabel, l.address_image settings]
      cases hdefine : l.names.define name (Row.nextAddress settings l.rows)
          (some (Row.active l.rows)) with
      | error cause =>
        have hrefused : (Layout.bindLabel (l.image settings) (some name)).2 =
            [.duplicate .label name cause] := by
          have hdefine' : (l.image settings).symbols.define name (l.image settings).address
              (some (l.image settings).active) = .error cause := by
            rw [l.address_image settings]
            exact hdefine
          simp only [Layout.bindLabel, hdefine']
        exact Or.inl ⟨cause, List.mem_append_left _ (hrefused ▸ List.mem_singleton_self _)⟩
      | ok names =>
        have hknown : l.known settings line = names := by
          rw [known, hlabel, labelled, SymbolTable.tryDefine, hdefine]
        -- names only grow behind the line, so the address is still there at the end
        have hgrows : SymbolTable.Grows names ((line :: lines).foldl (add settings) l).names :=
          hknown ▸ (grows_namesAfter ..).trans (grows_foldl settings lines (l.add settings line))
        exact Or.inr (hgrows.address _ _ (SymbolTable.address?_define hdefine))
    · exact label_placeLines settings hlabel lines (l.add settings line) hp

/-- The bytes of a section are those of its rows, one after the other, encoded with the symbols of
the finished module; and a label that is not refused has the address of its line. -/
theorem bytes_assemble (source : String) (settings : Settings) :
    let l := Listing.ofLines settings (Source.read source).lines
    ∃ a, assemble source settings = .ok a ∧
      l.rows.map (·.line) = (Source.read source).lines ∧
      (∀ place, a.module.base place = settings.base place ∧
        (a.module.bytes place).toList = Row.bytesIn settings.isa a.module.symbols place l.rows) ∧
      (∀ before row after, l.rows = before ++ row :: after →
        Row.Laid settings a.module.symbols before row) ∧
      (∀ row ∈ l.rows, ∀ name, row.line.label = some name →
        (∀ cause, ⟨row.line.number, .duplicate .label name cause⟩ ∉ a.diagnostics) →
        a.module.symbols.address? name = some row.address) := by
  intro l
  obtain ⟨trace, hassemble⟩ := assemble_eq source settings rfl
  refine ⟨_, hassemble, Listing.map_line_rows settings _, fun place => ⟨?_, ?_⟩, ?_, ?_⟩
  · exact Listing.base_module settings l place
  · exact Listing.bytes_module settings l place
  · intro before row after hsplit
    exact Listing.laid_of_split hsplit
  · intro row hrow name hlabel hkept
    obtain ⟨-, hrows⟩ := Listing.placeLines_start settings (Source.read source).lines
    obtain ⟨p, hp, rfl⟩ := List.mem_map.1 (hrows.symm ▸ hrow)
    rcases Listing.label_placeLines settings hlabel _ Listing.empty hp with ⟨cause, hmem⟩ | hbound
    · refine absurd (Diagnostic.mem_byLine.2 ?_) (hkept cause)
      refine List.mem_append_left _ (List.mem_append_left _ (List.mem_append_right _ ?_))
      exact List.mem_flatMap.2 ⟨p, hp, List.mem_map_of_mem hmem⟩
    · exact hbound

end Mips
