import Mips.Proofs.Extension
import Mips.Proofs.History

/-!
# Where symbols come from

A symbol is in a module because of a row: the last label or constant that gave its address, or, as
long as there is none, a directive that exports it (`Row.Introduces`). A label gives the address and
the section of its row, so it points into that section or right behind its last byte, also where a
line behind it was left out.

    .data
    x: .byte 1      x   base
    y:              y   base + 1, behind the last byte
-/

namespace Mips

/-! ### Entries of a table -/

namespace SymbolTable

/-- Every name, with its address and its section, is such. -/
def Every (p : String → Option Word → Option Section → Prop) (t : SymbolTable) : Prop :=
  ∀ s ∈ t.symbols, p s.name s.address s.home

variable {p q : String → Option Word → Option Section → Prop} {t : SymbolTable}

theorem every_empty : empty.Every p := by
  intro s hs
  simp [empty] at hs

theorem Every.mono (h : t.Every p) (hpq : ∀ name address home, p name address home →
    q name address home) : t.Every q :=
  fun s hs => hpq _ _ _ (h s hs)

/-- Altering one symbol leaves the others as they are. -/
theorem Every.alter (h : t.Every p) {name : String} {f : Symbol → Symbol}
    (hname : p name (f ((t.get? name).getD { name })).address
      (f ((t.get? name).getD { name })).home) : (t.alter name f).Every p := by
  intro s hs
  have hget := mem_symbols_iff.1 hs
  by_cases heq : s.name = name
  · rw [heq, get?_alter_self] at hget
    rw [← Option.some.inj hget]
    exact hname
  · rw [get?_alter_of_ne t f heq] at hget
    exact h s (mem_symbols_iff.2 hget)

theorem Every.tryDefine (h : t.Every p) {name : String} {a : Word} {home : Option Section}
    (hname : p name (some a) home) : (t.tryDefine name a home).Every p := by
  unfold SymbolTable.tryDefine
  cases hdefine : t.define name a home with
  | error cause => exact h
  | ok u =>
    obtain ⟨rfl, -⟩ := define_eq_ok hdefine
    exact h.alter hname

/-- A name that is exported keeps its address, if it has one. -/
theorem Every.markGlobal (h : t.Every p) {name : String} (hname : p name none none) :
    (t.markGlobal name).Every p := by
  refine h.alter ?_
  cases hget : t.get? name with
  | none => exact hname
  | some s =>
    have hs : s.name = name := name_of_get? hget
    have hold := h s (mem_symbols_iff.2 (hs.symm ▸ hget))
    rwa [hs] at hold

end SymbolTable

/-! ### Entries of a listing -/

/-- What brought a name into a table, with its address and its section. -/
inductive Row.Introduces (rows : List Row) (name : String) :
    Option Word → Option Section → Prop where
  /-- The label of a row. -/
  | label {row : Row} (hrow : row ∈ rows) (hlabel : row.line.label = some name) :
    Introduces rows name (some row.address) (some row.place)
  | constant {row : Row} {value : List Token} (v : Word) (hrow : row ∈ rows)
    (hstatement : row.line.statement = some (.constant name value)) :
    Introduces rows name (some v) none
  /-- A directive that exports the name; no row gives it an address. -/
  | directive {row : Row} (hrow : row ∈ rows) (hplan : row.plan = .directive (.global name)) :
    Introduces rows name none none

theorem Row.Introduces.mono {rows rows' : List Row} {name : String} {address : Option Word}
    {home : Option Section} (h : Introduces rows name address home) (hrows : rows ⊆ rows') :
    Introduces rows' name address home := by
  cases h with
  | label hrow hlabel => exact .label (hrows hrow) hlabel
  | constant v hrow hstatement => exact .constant v (hrows hrow) hstatement
  | directive hrow hplan => exact .directive (hrows hrow) hplan

namespace Listing

variable (settings : Settings)

theorem introduces_add {l : Listing} (h : l.names.Every (Row.Introduces l.rows)) (line : Line) :
    (l.add settings line).names.Every (Row.Introduces (l.add settings line).rows) := by
  have hrow : l.row settings line ∈ (l.add settings line).rows := by simp [add]
  have hold : l.names.Every (Row.Introduces (l.add settings line).rows) :=
    h.mono fun _ _ _ hentry => hentry.mono (List.subset_append_left ..)
  have hknown : (l.known settings line).Every (Row.Introduces (l.add settings line).rows) := by
    unfold known
    cases hlabel : line.label with
    | none => exact hold
    | some name => exact hold.tryDefine (.label hrow hlabel)
  change (namesAfter ..).Every _
  unfold namesAfter
  split
  · next name value hstatement =>
    split
    · exact hknown.tryDefine (.constant _ hrow hstatement)
    · exact hknown
  · split
    · next name hplan => exact hknown.markGlobal (.directive hrow hplan)
    · exact hknown

/-- Every symbol was brought in by a row. -/
theorem introduces_ofLines (lines : List Line) :
    (ofLines settings lines).names.Every (Row.Introduces (ofLines settings lines).rows) := by
  induction lines using List.reverseRecOn with
  | nil => exact SymbolTable.every_empty
  | append_singleton lines line ih =>
    rw [ofLines_concat]
    exact introduces_add settings ih line

/-- A row stands in its section, or behind the last byte of it. -/
theorem address_within {lines : List Line} {row : Row}
    (h : row ∈ (ofLines settings lines).rows) :
    (settings.base row.place).toNat ≤ row.address.toNat ∧
      row.address.toNat ≤ (settings.base row.place).toNat +
        Row.sizeIn row.place (ofLines settings lines).rows := by
  obtain ⟨before, after, hsplit, hstands⟩ := stands_of_mem h
  rw [hstands.toNat_address, hsplit, Row.sizeIn_split]
  omega

end Listing

/-- Labels point into their section: the address of a label is in it or right behind its last byte.
A name without address has no section. -/
theorem homes_assemble (source : String) (settings : Settings) :
    ∃ a, assemble source settings = .ok a ∧
      ∀ s ∈ a.module.symbols.symbols,
        (∀ place, s.home = some place → ∃ address, s.address = some address ∧
          (settings.base place).toNat ≤ address.toNat ∧
          address.toNat ≤ (settings.base place).toNat + (a.module.bytes place).size) ∧
        (s.address = none → s.home = none) := by
  obtain ⟨a, hassemble⟩ := exists_assembly source settings
  refine ⟨a, hassemble, ?_⟩
  rw [module_assemble hassemble]
  rintro ⟨name, address, home, isGlobal⟩ hs
  have horigin : Row.Introduces _ name address home := Listing.introduces_ofLines settings _ _ hs
  dsimp only
  cases horigin with
  | @label row hrow hlabel =>
    refine ⟨fun place hplace => ?_, fun hnone => by simp at hnone⟩
    obtain rfl := Option.some.inj hplace
    rw [Listing.size_module]
    exact ⟨row.address, rfl, Listing.address_within settings hrow⟩
  | constant v hrow hstatement => exact ⟨fun place hplace => by simp at hplace, fun _ => rfl⟩
  | directive hrow hplan => exact ⟨fun place hplace => by simp at hplace, fun _ => rfl⟩

/-- The label of a line that was left out for want of room points right behind the last byte. -/
theorem label_behind_last_byte :
    ∃ a, assemble ".data\nx: .byte 1\ny: .space 4" { dataBase := 0xfffffffe } = .ok a ∧
      (⟨"y", some 0xffffffff, some .data, false⟩ : Symbol) ∈ a.module.symbols.symbols ∧
      (a.module.bytes .data).size = 1 ∧
      ∃ address : Word, address = 0xffffffff ∧ 0xfffffffe ≤ address.toNat ∧
        address.toNat ≤ 0xfffffffe + (a.module.bytes .data).size := by
  obtain ⟨a, ha, hhomes⟩ :=
    homes_assemble ".data\nx: .byte 1\ny: .space 4" { dataBase := 0xfffffffe }
  have hgiven : (assemble ".data\nx: .byte 1\ny: .space 4" { dataBase := 0xfffffffe }).toOption.map
      (fun a => (a.module.symbols.get? "y", (a.module.bytes .data).size)) =
      some (some ⟨"y", some 0xffffffff, some .data, false⟩, 1) := by decide +kernel
  rw [ha] at hgiven
  obtain ⟨hy, hsize⟩ := Prod.mk.inj (Option.some.inj hgiven)
  have hmem : (⟨"y", some 0xffffffff, some .data, false⟩ : Symbol) ∈ a.module.symbols.symbols :=
    SymbolTable.mem_symbols_iff.2 hy
  obtain ⟨address, haddress, hwithin⟩ := (hhomes _ hmem).1 .data rfl
  exact ⟨a, ha, hmem, hsize, address, (Option.some.inj haddress).symm, hwithin⟩

end Mips
