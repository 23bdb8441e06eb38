import Mathlib.Data.List.Induction
import Mips.Proofs.Encoding
import Mips.Proofs.Listing
import Mips.Proofs.Symbol

/-!
# Where the rows of a listing stand

A row is what its line gives in the listing of the lines before it (`rows_split`). So it stands in
the section that they left active, right behind their bytes and with room for its own, its
instruction is one that can be selected, and what is known there is known in the whole listing.
-/

namespace Mips

/-! ### Names -/

namespace SymbolTable

theorem grows_tryDefine (t : SymbolTable) (name : String) (a : Word) (home : Option Section) :
    Grows t (t.tryDefine name a home) := by
  unfold tryDefine
  cases h : t.define name a home with
  | ok u => exact grows_define h
  | error cause => exact Grows.refl t

end SymbolTable

namespace Listing

open SymbolTable

theorem grows_labelled (names : SymbolTable) (place : Section) (address : Word)
    (label : Option String) : Grows names (labelled names place address label) := by
  cases label with
  | none => exact Grows.refl names
  | some name => exact grows_tryDefine names name address (some place)

theorem grows_namesAfter (names : SymbolTable) (address : Word) (plan : Plan)
    (statement : Option Statement) : Grows names (namesAfter names address plan statement) := by
  unfold namesAfter
  split
  · split
    · exact grows_tryDefine ..
    · exact Grows.refl names
  · split
    · exact grows_markGlobal ..
    · exact Grows.refl names

variable (settings : Settings)

theorem grows_add (l : Listing) (line : Line) : Grows l.names (l.add settings line).names :=
  (grows_labelled ..).trans (grows_namesAfter ..)

theorem grows_foldl : ∀ (lines : List Line) (l : Listing),
    Grows l.names (lines.foldl (add settings) l).names
  | [], l => Grows.refl l.names
  | line :: lines, l => (grows_add settings l line).trans (grows_foldl lines _)

/-! ### Splitting a listing -/

theorem ofLines_append (lines more : List Line) :
    ofLines settings (lines ++ more) = more.foldl (add settings) (ofLines settings lines) := by
  rw [ofLines, List.foldl_append]
  rfl

theorem ofLines_concat (lines : List Line) (line : Line) :
    ofLines settings (lines ++ [line]) = (ofLines settings lines).add settings line := by
  rw [ofLines_append]
  rfl

/-- There is a row for every line, in the same order. -/
theorem map_line_rows (lines : List Line) :
    (ofLines settings lines).rows.map (·.line) = lines := by
  induction lines using List.reverseRecOn with
  | nil => rfl
  | append_singleton lines line ih =>
    rw [ofLines_concat, add, List.map_append, ih]
    rfl

/-- A row is the next one in the listing of the lines before it. -/
theorem rows_split (lines : List Line) :
    ∀ {before : List Row} {row : Row} {after : List Row},
    (ofLines settings lines).rows = before ++ row :: after →
    ∃ l : Listing, l.rows = before ∧ l.row settings row.line = row ∧
      (∃ lines', l = ofLines settings lines') ∧
      Grows (l.add settings row.line).names (ofLines settings lines).names := by
  induction lines using List.reverseRecOn with
  | nil =>
    intro before row after h
    simp [ofLines, empty] at h
  | append_singleton lines line ih =>
    intro before row after h
    rw [ofLines_concat] at h ⊢
    change (ofLines settings lines).rows ++ [(ofLines settings lines).row settings line] = _ at h
    -- the row is the last one, or it is a row of the listing without the last line
    rcases List.eq_nil_or_concat after with rfl | ⟨after', last, rfl⟩
    · obtain ⟨hbefore, hrow⟩ := List.append_inj' h rfl
      have hrow' : (ofLines settings lines).row settings line = row := List.singleton_inj.1 hrow
      subst hrow'
      exact ⟨ofLines settings lines, hbefore, rfl, ⟨lines, rfl⟩, Grows.refl _⟩
    · rw [List.concat_eq_append, ← List.cons_append, ← List.append_assoc] at h
      obtain ⟨hrows, -⟩ := List.append_inj' h rfl
      obtain ⟨l, hl, hrow, hlines, hgrows⟩ := ih hrows
      exact ⟨l, hl, hrow, hlines, hgrows.trans (grows_add settings _ line)⟩

end Listing

/-! ### Room -/

namespace Row

theorem sizeIn_concat (place : Section) (rows : List Row) (row : Row) :
    sizeIn place (rows ++ [row]) =
      sizeIn place rows + if row.place = place then row.size else 0 := by
  by_cases h : row.place = place
  · simp [sizeIn, h]
  · simp [sizeIn, h]

theorem sizeIn_split (before : List Row) (row : Row) (after : List Row) :
    sizeIn row.place (before ++ row :: after) =
      sizeIn row.place before + row.size + sizeIn row.place after := by
  simp [sizeIn, Nat.add_assoc]

end Row

namespace Listing

variable (settings : Settings)

/-- A plan is only made where there is room for it. -/
theorem hasRoom_plan (isa : Isa) (names : SymbolTable) (address : Word) (hasRoom : Nat → Bool)
    (statement : Option Statement) :
    plan isa names address hasRoom statement = .nothing ∨
      hasRoom ((plan isa names address hasRoom statement).size address) = true := by
  unfold plan
  split
  · split
    · split
      · next h => exact Or.inr h
      · exact Or.inl rfl
    · exact Or.inl rfl
  · split
    · split
      · next h => exact Or.inr h
      · exact Or.inl rfl
    · exact Or.inl rfl
  · exact Or.inl rfl
  · exact Or.inl rfl

/-- No section of a listing passes the last address. -/
theorem base_add_sizeIn_le (lines : List Line) (place : Section) :
    (settings.base place).toNat + Row.sizeIn place (ofLines settings lines).rows ≤ 0xffffffff := by
  induction lines using List.reverseRecOn with
  | nil =>
    have := (settings.base place).isLt
    simp only [ofLines, empty, List.foldl_nil, Row.sizeIn, List.filter_nil, List.map_nil,
      List.sum_nil]
    omega
  | append_singleton lines line ih =>
    rw [ofLines_concat, add, Row.sizeIn_concat]
    split
    · next hplace =>
      rcases hasRoom_plan settings.isa ((ofLines settings lines).known settings line)
        (Row.nextAddress settings (ofLines settings lines).rows)
        (Row.hasRoom settings (ofLines settings lines).rows) line.statement with h | h
      · have hsize : ((ofLines settings lines).row settings line).size = 0 := by
          rw [Row.size, row, h]
          rfl
        omega
      · have hroom : (settings.base place).toNat + Row.sizeIn place (ofLines settings lines).rows +
            ((ofLines settings lines).row settings line).size ≤ 0xffffffff := by
          rw [← hplace]
          exact of_decide_eq_true h
        omega
    · exact ih

end Listing

/-! ### What holds of every row -/

namespace Row

/-- The instruction of the row can be selected by its name. -/
def Selected (isa : Isa) (row : Row) : Prop :=
  ∀ m args, row.plan = .instruction m args →
    Mnemonic.select isa m.name (Line.splitArgs args).length = .ok m

/-- The row stands behind the rows `before` in a listing with the given names. -/
structure Stands (settings : Settings) (names : SymbolTable) (before : List Row) (row : Row) :
    Prop where
  place : row.place = active before
  address : row.address = nextAddress settings before
  room : (settings.base row.place).toNat + sizeIn row.place before + row.size ≤ 0xffffffff
  selected : row.Selected settings.isa
  exported : ∀ name, row.plan = .directive (.global name) → names.exports name = true

end Row

namespace Listing

theorem selected_plan {isa : Isa} {names : SymbolTable} {address : Word} {hasRoom : Nat → Bool}
    {statement : Option Statement} {m : Mnemonic} {args : List Token}
    (h : plan isa names address hasRoom statement = .instruction m args) :
    statement = some (.instruction m.name args) ∧
      Mnemonic.select isa m.name (Line.splitArgs args).length = .ok m := by
  unfold plan at h
  split at h
  · next name args' =>
    split at h
    · next m' hm =>
      split at h
      · obtain ⟨rfl, rfl⟩ := Plan.instruction.inj h
        have hname := Mnemonic.name_of_select hm
        subst hname
        exact ⟨rfl, hm⟩
      · simp at h
    · simp at h
  · split at h
    · split at h <;> simp at h
    · simp at h
  · simp at h
  · simp at h

variable {settings : Settings}

/-- The instruction of a row is that of its line. -/
theorem statement_of_plan {lines : List Line} {row : Row} (h : row ∈ (ofLines settings lines).rows)
    {m : Mnemonic} {args : List Token} (hplan : row.plan = .instruction m args) :
    row.line.statement = some (.instruction m.name args) := by
  obtain ⟨before, after, hsplit⟩ := List.append_of_mem h
  obtain ⟨l, -, hrow, -, -⟩ := rows_split settings lines hsplit
  rw [← hrow] at hplan
  exact (selected_plan hplan).1

/-- Every row of a listing stands behind those before it. -/
theorem stands_of_split {lines : List Line} {before : List Row} {row : Row} {after : List Row}
    (h : (ofLines settings lines).rows = before ++ row :: after) :
    Row.Stands settings (ofLines settings lines).names before row := by
  obtain ⟨l, rfl, hrow, ⟨lines', rfl⟩, hgrows⟩ := rows_split settings lines h
  have hroom := base_add_sizeIn_le settings (lines' ++ [row.line]) row.place
  rw [ofLines_concat, add, Row.sizeIn_concat, hrow, if_pos rfl] at hroom
  refine ⟨?_, ?_, by omega, ?_, ?_⟩
  · rw [← hrow]
    rfl
  · rw [← hrow]
    rfl
  · intro m args hplan
    rw [← hrow] at hplan
    exact (selected_plan hplan).2
  · intro name hplan
    refine hgrows.exported name ?_
    rw [add, hrow, hplan]
    have hstatement : ∀ n v, row.line.statement ≠ some (.constant n v) := by
      intro n v hs
      rw [← hrow] at hplan
      simp only [Listing.row, hs, plan] at hplan
      simp at hplan
    unfold namesAfter
    split
    · next n v hs => exact absurd hs (hstatement n v)
    · exact SymbolTable.exports_markGlobal_self ..

theorem stands_of_mem {lines : List Line} {row : Row} (h : row ∈ (ofLines settings lines).rows) :
    ∃ before after, (ofLines settings lines).rows = before ++ row :: after ∧
      Row.Stands settings (ofLines settings lines).names before row := by
  obtain ⟨before, after, hsplit⟩ := List.append_of_mem h
  exact ⟨before, after, hsplit, stands_of_split hsplit⟩

theorem selected_of_mem {lines : List Line} {row : Row} (h : row ∈ (ofLines settings lines).rows) :
    row.Selected settings.isa := by
  obtain ⟨before, after, -, hstands⟩ := stands_of_mem h
  exact hstands.selected

end Listing

/-- No address of a row wraps around. -/
theorem Row.Stands.toNat_address {settings : Settings} {names : SymbolTable} {before : List Row}
    {row : Row} (h : Row.Stands settings names before row) :
    row.address.toNat = (settings.base row.place).toNat + Row.sizeIn row.place before := by
  have hroom := h.room
  rw [h.address, Row.nextAddress, ← h.place, BitVec.toNat_add, BitVec.toNat_ofNat, Nat.add_mod_mod,
    Nat.mod_eq_of_lt (by omega)]

/-! ### Order of the rows -/

namespace Listing

variable (settings : Settings)

/-- The rows of a section follow each other without overlap. -/
theorem pairwise_rows (lines : List Line) :
    (ofLines settings lines).rows.Pairwise fun x y =>
      x.place = y.place → x.address.toNat + x.size ≤ y.address.toNat := by
  induction lines using List.reverseRecOn with
  | nil => exact List.Pairwise.nil
  | append_singleton lines line ih =>
    have hrows : (ofLines settings (lines ++ [line])).rows =
        (ofLines settings lines).rows ++ [(ofLines settings lines).row settings line] := by
      rw [ofLines_concat]
      rfl
    have hlast := stands_of_split hrows
    rw [hrows]
    refine List.pairwise_append.2 ⟨ih, List.pairwise_singleton _ _, ?_⟩
    intro x hx y hy hplace
    obtain rfl := List.mem_singleton.1 hy
    obtain ⟨before, after, hsplit, hstands⟩ := stands_of_mem hx
    rw [hstands.toNat_address, hlast.toNat_address, ← hplace, hsplit, Row.sizeIn_split]
    omega

end Listing

end Mips
