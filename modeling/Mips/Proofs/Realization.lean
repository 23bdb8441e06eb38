import Mips.Proofs.Layout
import Mips.Proofs.Row

/-!
# The second pass fills the listing

Between two lines of the second pass the rows so far have their final bytes, and behind the cursors
stands what the first pass left for the other rows. Every line finds the cursor where its row
stands, because a row takes as many bytes in the second pass as in the first. What is made of a line
depends on its row and on the finished names only.

    before            │ after
    row.bytes ...     │ row.reserved ...
                      ▲ cursor
-/

namespace Mips

namespace Row

/-! ### Final bytes -/

/-- A row that can be selected has as many bytes in the end as were set aside for it. -/
theorem length_bytes {isa : Isa} {row : Row} (h : row.Selected isa) (names : SymbolTable) :
    (row.bytes isa names).length = row.size := by
  unfold bytes size Plan.bytes Plan.size
  cases hp : row.plan with
  | nothing => rfl
  | directive d => rfl
  | instruction m args =>
    dsimp only
    split
    · next e he =>
      obtain ⟨b, -, rfl⟩ := Encoding.ofStatement_eq_ok (h m args hp) he
      rw [Mnemonic.length_flatMap_bytes, Mnemonic.length_words, Mnemonic.size]
    · exact List.length_replicate

theorem length_bytesIn {isa : Isa} {rows : List Row} (h : ∀ row ∈ rows, row.Selected isa)
    (names : SymbolTable) (place : Section) :
    (bytesIn isa names place rows).length = sizeIn place rows := by
  rw [bytesIn, sizeIn, List.length_flatMap]
  congr 1
  refine List.map_congr_left fun row hrow => ?_
  exact length_bytes (h row (List.mem_filter.1 hrow).1) names

theorem bytesIn_concat (isa : Isa) (names : SymbolTable) (rows : List Row) (row : Row) :
    (fun place => bytesIn isa names place (rows ++ [row])) =
      appendAt row.place (row.bytes isa names) fun place => bytesIn isa names place rows := by
  funext s
  by_cases h : row.place = s
  · simp [bytesIn, appendAt, h]
  · simp [bytesIn, appendAt, h, Ne.symm h]

theorem reservedIn_cons_self (row : Row) (after : List Row) :
    reservedIn (row :: after) row.place = row.reserved ++ reservedIn after row.place := by
  simp [reservedIn]

theorem dropAt_reservedIn (row : Row) (after : List Row) :
    dropAt row.place row.size (reservedIn (row :: after)) = reservedIn after := by
  funext s
  by_cases h : row.place = s
  · subst h
    rw [dropAt, if_pos rfl, reservedIn_cons_self, ← row.length_reserved, List.drop_left]
  · simp [dropAt, reservedIn, h, Ne.symm h]

theorem bytesIn_append (isa : Isa) (names : SymbolTable) (place : Section) (rows rows' : List Row) :
    bytesIn isa names place (rows ++ rows') =
      bytesIn isa names place rows ++ bytesIn isa names place rows' := by
  rw [bytesIn, List.filter_append, List.flatMap_append]
  rfl

end Row

/-- The bytes of a row are found at its address. -/
theorem Listing.bytes_prefix {settings : Settings} {lines : List Line} {row : Row}
    (h : row ∈ (ofLines settings lines).rows) (names : SymbolTable) :
    row.bytes settings.isa names <+:
      (Row.bytesIn settings.isa names row.place (ofLines settings lines).rows).drop
        (row.address.toNat - (settings.base row.place).toNat) := by
  obtain ⟨before, after, hsplit, hstands⟩ := stands_of_mem h
  have hselected : ∀ x ∈ before, x.Selected settings.isa := fun x hx =>
    selected_of_mem (hsplit ▸ List.mem_append_left _ hx)
  have hstart : row.address.toNat - (settings.base row.place).toNat =
      (Row.bytesIn settings.isa names row.place before).length := by
    rw [hstands.toNat_address, Row.length_bytesIn hselected, Nat.add_sub_cancel_left]
  rw [hsplit, hstart, Row.bytesIn_append, List.drop_left]
  simp [Row.bytesIn]

namespace Row

/-! ### A line in the second pass -/

/-- What the second pass makes of a row with the finished names. -/
def realized (isa : Isa) (names : SymbolTable) (row : Row) : Realized :=
  match row.plan with
  | .instruction m args =>
    match Encoding.ofStatement isa names row.address m.name args with
    | .error problems => { line := row.line.number, problems }
    | .ok e =>
      { line := row.line.number, problems := e.warnings
        relocation := e.symbol.map (⟨row.address + BitVec.ofNat 32 (4 * e.fieldIndex), ·⟩)
        words := Realization.addressed row.address e.words }
  | .nothing | .directive _ => { line := row.line.number }

theorem line_realized (isa : Isa) (names : SymbolTable) (row : Row) :
    (row.realized isa names).line = row.line.number := by
  unfold realized
  split
  · split <;> rfl
  · rfl
  · rfl

/-- The image of the second pass between the rows `before` and the rows `after`. -/
def between (settings : Settings) (names : SymbolTable) (before after : List Row) : Image :=
  .parted settings.base (fun place => bytesIn settings.isa names place before) (reservedIn after)
    (active before) names

end Row

namespace Realization

theorem writeWords_parted (base : Section → Word) (active : Section) (names : SymbolTable) :
    ∀ (words : List Instruction) (done rest : Section → List UInt8),
    writeWords (.parted base done rest active names) words =
      .parted base (appendAt active (words.flatMap (·.bytes)) done)
        (dropAt active (words.flatMap (·.bytes)).length rest) active names
  | [], done, rest => by simp [writeWords]
  | i :: words, done, rest => by
    have hstep := writeWords_parted base active names words (appendAt active i.bytes done)
      (dropAt active i.bytes.length rest)
    rw [← Image.write_parted] at hstep
    refine hstep.trans ?_
    congr 1
    · funext s
      by_cases h : s = active <;> simp [appendAt, h]
    · funext s
      by_cases h : s = active <;> simp [dropAt, h]

variable {settings : Settings} {names : SymbolTable} {before after : List Row}

/-- The image behind a row, once its bytes are before the cursor. -/
theorem between_concat {row : Row} (hplace : row.place = Row.active before) :
    Row.between settings names (before ++ [row]) after =
      .parted settings.base
        (appendAt (Row.active before) (row.bytes settings.isa names)
          fun place => Row.bytesIn settings.isa names place before)
        (dropAt (Row.active before) row.size (Row.reservedIn (row :: after)))
        (row.plan.next (Row.active before)) names := by
  rw [Row.between, Row.bytesIn_concat, Row.active_concat, ← hplace, Row.dropAt_reservedIn]

theorem address_between {row : Row} (hrow : Row.Stands settings names before row)
    (hselected : ∀ row ∈ before, row.Selected settings.isa) :
    settings.base (Row.active before) +
      BitVec.ofNat 32 (Row.bytesIn settings.isa names (Row.active before) before).length =
        row.address := by
  rw [Row.length_bytesIn hselected, hrow.address]
  rfl

/-- An instruction is encoded into its room, or leaves its zeros. -/
theorem realizeInstruction_between {row : Row} {m : Mnemonic} {args : List Token}
    (hplan : row.plan = .instruction m args) (hrow : Row.Stands settings names before row)
    (hselected : ∀ row ∈ before, row.Selected settings.isa) :
    realizeInstruction settings.isa (Row.between settings names before (row :: after))
        row.line.number m args =
      .ok (Row.between settings names (before ++ [row]) after,
        row.realized settings.isa names) := by
  have haddress : (Row.between settings names before (row :: after)).address = row.address := by
    rw [Row.between, Image.address_parted, address_between hrow hselected]
  have hzeros : List.replicate m.size 0 <+: Row.reservedIn (row :: after) (Row.active before) := by
    rw [← hrow.place, Row.reservedIn_cons_self, Row.reserved, hplan]
    exact List.prefix_append ..
  have hsize : row.size = m.size := by
    rw [Row.size, hplan]
    rfl
  rw [between_concat hrow.place, realizeInstruction, haddress, Row.realized, Row.bytes, hplan,
    hsize]
  simp only [Plan.bytes, Plan.next, Row.between, Image.symbols_parted]
  cases he : Encoding.ofStatement settings.isa names row.address m.name args with
  | error problems =>
    dsimp only
    rw [Image.skip_parted _ (Or.inr hzeros)]
  | ok e =>
    obtain ⟨b, -, rfl⟩ := Encoding.ofStatement_eq_ok (hrow.selected m args hplan) he
    dsimp only
    rw [if_pos (Mnemonic.length_words m b.operands), writeWords_parted,
      Mnemonic.length_flatMap_bytes, Mnemonic.length_words]
    rfl

/-- The second pass finds a line where its row stands, and fills the row. -/
theorem realizeLine_between {p : Placed} (hrow : Row.Stands settings names before p.row)
    (hselected : ∀ row ∈ before, row.Selected settings.isa) :
    realizeLine settings.isa (Row.between settings names before (p.row :: after)) p =
      .ok (Row.between settings names (before ++ [p.row]) after,
        p.row.realized settings.isa names) := by
  have hmeets : (Row.between settings names before (p.row :: after)).active = p.place ∧
      (Row.between settings names before (p.row :: after)).address = p.address := by
    refine ⟨hrow.place.symm, ?_⟩
    rw [Row.between, Image.address_parted, address_between hrow hselected]
    rfl
  rw [realizeLine, if_pos hmeets]
  cases hplan : p.plan with
  | nothing =>
    have hbytes : p.row.bytes settings.isa names = [] := by
      rw [Row.bytes, Placed.row, hplan]
      rfl
    have hsize : p.row.size = 0 := by
      rw [Row.size, Placed.row, hplan]
      rfl
    have hnext : p.row.plan.next (Row.active before) = Row.active before := by
      rw [Placed.row, hplan]
      rfl
    have hrealized : p.row.realized settings.isa names = { line := p.line.number } := by
      simp only [Row.realized, Placed.row, hplan]
    rw [between_concat hrow.place, hbytes, hsize, hnext, hrealized]
    rw [appendAt_nil, dropAt_zero]
    rfl
  | directive d =>
    have hbytes : p.row.bytes settings.isa names = d.bytes p.row.address := by
      simp only [Row.bytes, Placed.row, hplan]
      rfl
    have hreserved : p.row.reserved = d.bytes p.row.address := by
      simp only [Row.reserved, Placed.row, hplan]
      rfl
    have hrealized : p.row.realized settings.isa names = { line := p.line.number } := by
      simp only [Row.realized, Placed.row, hplan]
    have hnext : p.row.plan.next (Row.active before) =
        (Plan.directive d).next (Row.active before) := by
      rw [Placed.row, hplan]
    have hkept : Image.exported names d = names := by
      cases d with
      | global name => exact SymbolTable.markGlobal_eq_self (hrow.exported name hplan)
      | _ => rfl
    have hthere : d.bytes p.row.address <+:
        Row.reservedIn (p.row :: after) (Row.active before) := by
      rw [← hrow.place, Row.reservedIn_cons_self, hreserved]
      exact List.prefix_append ..
    have haddress := address_between hrow hselected
    rw [between_concat hrow.place, hbytes, ← p.row.length_reserved, hreserved, hnext, hrealized]
    dsimp only
    rw [Row.between, Image.execute_parted d (Or.inr (by rw [haddress]; exact hthere)), haddress,
      hkept]
  | instruction m args => exact realizeInstruction_between hplan hrow hselected

/-! ### The whole pass -/

/-- The second pass goes through a listing, from any of its rows to any later one. -/
theorem realizeLines_between {rows : List Row}
    (hstands : ∀ before row after, rows = before ++ row :: after →
      Row.Stands settings names before row) :
    ∀ (placed : List Placed) (before after : List Row),
    rows = before ++ placed.map (·.row) ++ after →
    realizeLines settings.isa (Row.between settings names before (placed.map (·.row) ++ after))
        placed =
      .ok (Row.between settings names (before ++ placed.map (·.row)) after,
        placed.map fun p => p.row.realized settings.isa names)
  | [], before, after, _ => by simp [realizeLines]
  | p :: placed, before, after, h => by
    have hsplit : rows = before ++ p.row :: (placed.map (·.row) ++ after) := by
      rw [h]
      simp
    have hselected : ∀ row ∈ before, row.Selected settings.isa := by
      intro row hmem
      obtain ⟨before', between, rfl⟩ := List.append_of_mem hmem
      exact (hstands before' row _ (by rw [hsplit, List.append_assoc, List.cons_append])).selected
    have hline : realizeLine settings.isa
        (Row.between settings names before (p.row :: (placed.map (·.row) ++ after))) p =
          .ok (Row.between settings names (before ++ [p.row]) (placed.map (·.row) ++ after),
            p.row.realized settings.isa names) :=
      realizeLine_between (hstands before p.row _ hsplit) hselected
    have hrest := realizeLines_between hstands placed (before ++ [p.row]) after
      (by rw [h]; simp)
    simp only [List.map_cons, List.cons_append, realizeLines, hline, hrest]
    simp

end Realization

end Mips
