import Mathlib.Data.List.Basic
import Mathlib.Data.List.Infix
import Mips.Proofs.Assembly
import Mips.Proofs.Grammar
import Mips.Proofs.Field

/-!
# Relocations

An instruction whose expression has a name without address leaves the field of the expression zero
and gets one relocation, for the first such name. The relocation is at the word that has the field,
which is one of the words of the instruction, so relocations keep the order of the lines.

    row.address            fieldIndex
    ├── word ──┬── word ──┤    blt, bgt: the second word
                    ▲          all others: the first word
               relocation
-/

namespace Mips

/-! ### The symbol of an encoding -/

/-- The first name without address in the expression among the operands. -/
def Mnemonic.awaited? (names : SymbolTable) (m : Mnemonic) (args : List (List Token)) :
    Option String :=
  (m.expression? args).bind fun (_, arg) =>
    (Token.names arg).find? fun name => (names.address? name).isNone

namespace Encoding

variable {isa : Isa} {names : SymbolTable} {address : Word} {m : Mnemonic} {tokens : List Token}
  {e : Encoding}

/-- An encoding waits for the first name without address. -/
theorem symbol_ofStatement
    (hselect : Mnemonic.select isa m.name (Line.splitArgs tokens).length = .ok m)
    (he : ofStatement isa names address m.name tokens = .ok e) :
    e.symbol = m.awaited? names (Line.splitArgs tokens) := by
  unfold Mnemonic.awaited?
  cases hx : m.expression? (Line.splitArgs tokens) with
  | none =>
    obtain ⟨b, hb, rfl⟩ := ofStatement_eq_ok hselect he
    exact (bindAll_no_expression hx hb).1
  | some x =>
    obtain ⟨kind, arg⟩ := x
    obtain ⟨expr, v, hv, hsymbol, -, -⟩ := ofStatement_expression rfl hselect he hx
    obtain ⟨hparse, heval⟩ := value_eq_ok hv
    have hvalue := Expr.unresolved?_of_eval names address heval
    have hfind := Expr.unresolved?_eq_find? names expr
    rw [Expr.names_parse hparse] at hfind
    change e.symbol = (Token.names arg).find? fun name => (names.address? name).isNone
    rw [hsymbol, ← hfind]
    cases v with
    | none => rfl
    | some x => exact (Option.isNone_iff_eq_none.1 hvalue).symm

/-- While an encoding waits for a name, the field of its expression is zero. -/
theorem read_of_symbol {symbol : String}
    (hselect : Mnemonic.select isa m.name (Line.splitArgs tokens).length = .ok m)
    (he : ofStatement isa names address m.name tokens = .ok e) (hsymbol : e.symbol = some symbol) :
    ∃ kind arg, m.expression? (Line.splitArgs tokens) = some (kind, arg) ∧
      (e.words.drop m.fieldIndex).map (fun i => kind.read i) =
        if kind = .full then [0, 0] else [0] := by
  cases hx : m.expression? (Line.splitArgs tokens) with
  | none =>
    obtain ⟨b, hb, rfl⟩ := ofStatement_eq_ok hselect he
    simp [(bindAll_no_expression hx hb).1] at hsymbol
  | some x =>
    obtain ⟨kind, arg⟩ := x
    obtain ⟨expr, v, -, hawaits, hread, -⟩ := ofStatement_expression rfl hselect he hx
    have hunknown : v = none := by
      cases v with
      | none => rfl
      | some x => simp [hawaits] at hsymbol
    refine ⟨kind, arg, rfl, ?_⟩
    rw [hread, hunknown]
    exact kind.parts_zero

end Encoding

/-! ### The relocation of a row -/

namespace Mnemonic

/-- The field of an expression is in the first word, or in the second one where that branches. -/
theorem fieldIndex_of_mem : ∀ m ∈ table,
    m.fieldIndex = if m.name = "blt" ∨ m.name = "bgt" then 1 else 0 := by decide

theorem fieldIndex_lt_length : ∀ m ∈ table, m.fieldIndex < m.length := by decide

end Mnemonic

namespace Row

/-- The relocation of a row, if its instruction can be encoded and has a name without address in its
expression. -/
def relocation? (isa : Isa) (names : SymbolTable) (row : Row) : Option Relocation :=
  match row.plan with
  | .instruction m args =>
    match Encoding.ofStatement isa names row.address m.name args with
    | .ok _ =>
      (m.awaited? names (Line.splitArgs args)).map
        (⟨row.address + if m.name = "blt" ∨ m.name = "bgt" then 4 else 0, ·⟩)
    | .error _ => none
  | .nothing | .directive _ => none

variable {isa : Isa} {names : SymbolTable} {row : Row}

/-- The encoding behind a relocation. -/
theorem relocation?_eq_some {r : Relocation} (hselected : row.Selected isa)
    (h : row.relocation? isa names = some r) :
    ∃ m args e, row.plan = .instruction m args ∧ m ∈ Mnemonic.table ∧
      Mnemonic.select isa m.name (Line.splitArgs args).length = .ok m ∧
      Encoding.ofStatement isa names row.address m.name args = .ok e ∧
      e.symbol = some r.symbol ∧ r.address = row.address + BitVec.ofNat 32 (4 * m.fieldIndex) := by
  unfold relocation? at h
  split at h
  · next m args hplan =>
    split at h
    · next e he =>
      have hselect := hselected m args hplan
      have hm := Mnemonic.mem_table_of_select hselect
      rw [← Encoding.symbol_ofStatement hselect he] at h
      obtain ⟨symbol, hsymbol, rfl⟩ := Option.map_eq_some_iff.1 h
      refine ⟨m, args, e, hplan, hm, hselect, he, hsymbol, ?_⟩
      rw [Mnemonic.fieldIndex_of_mem m hm]
      split <;> rfl
    · simp at h
  · simp at h
  · simp at h

/-- The second pass gives a row its relocation. -/
theorem relocation_realized (hselected : row.Selected isa) :
    (row.realized isa names).relocation = row.relocation? isa names := by
  unfold realized relocation?
  cases hplan : row.plan with
  | nothing => rfl
  | directive d => rfl
  | instruction m args =>
    have hselect := hselected m args hplan
    cases he : Encoding.ofStatement isa names row.address m.name args with
    | error problem => simp only [he]
    | ok e =>
      have hindex : e.fieldIndex = m.fieldIndex := by
        obtain ⟨b, -, rfl⟩ := Encoding.ofStatement_eq_ok hselect he
        rfl
      simp only [he, Encoding.symbol_ofStatement hselect he, hindex,
        Mnemonic.fieldIndex_of_mem m (Mnemonic.mem_table_of_select hselect)]
      split <;> rfl

end Row

/-! ### The word of a field -/

section FieldWord

variable {settings : Settings} {lines : List Line} {row : Row} {m : Mnemonic} {args : List Token}

/-- The words of an instruction are in the room of its row. -/
theorem toNat_wordAddress (hrow : row ∈ (Listing.ofLines settings lines).rows)
    (hplan : row.plan = .instruction m args) {n : Nat} (hn : n < m.length) :
    (row.address + BitVec.ofNat 32 (4 * n)).toNat = row.address.toNat + 4 * n ∧
      4 * n + 4 ≤ row.size ∧
      row.address.toNat + row.size ≤ (settings.base row.place).toNat +
        Row.sizeIn row.place (Listing.ofLines settings lines).rows := by
  obtain ⟨before, after, hsplit, hstands⟩ := Listing.stands_of_mem hrow
  have hroom := hstands.room
  have hsize : row.size = 4 * m.length := by
    rw [Row.size, hplan]
    rfl
  have hsum := Row.sizeIn_split before row after
  rw [← hsplit] at hsum
  have haddress := hstands.toNat_address
  refine ⟨?_, by omega, by omega⟩
  rw [BitVec.toNat_add, BitVec.toNat_ofNat, Nat.add_mod_mod, Nat.mod_eq_of_lt (by omega)]

theorem fieldIndex_lt_of_mem (hrow : row ∈ (Listing.ofLines settings lines).rows)
    (hplan : row.plan = .instruction m args) : m.fieldIndex < m.length :=
  Mnemonic.fieldIndex_lt_length m
    (Mnemonic.mem_table_of_select (Listing.selected_of_mem hrow m args hplan))

/-- The word with the field of an expression is one of the words of its row. -/
theorem toNat_fieldAddress (hrow : row ∈ (Listing.ofLines settings lines).rows)
    (hplan : row.plan = .instruction m args) :
    (row.address + BitVec.ofNat 32 (4 * m.fieldIndex)).toNat =
        row.address.toNat + 4 * m.fieldIndex ∧
      4 * m.fieldIndex + 4 ≤ row.size ∧
      row.address.toNat + row.size ≤ (settings.base row.place).toNat +
        Row.sizeIn row.place (Listing.ofLines settings lines).rows :=
  toNat_wordAddress hrow hplan (fieldIndex_lt_of_mem hrow hplan)

/-- The words of an encoding from any one on are found at the address of that word. -/
theorem words_prefix {names : SymbolTable} {e : Encoding}
    (hrow : row ∈ (Listing.ofLines settings lines).rows) (hplan : row.plan = .instruction m args)
    (he : Encoding.ofStatement settings.isa names row.address m.name args = .ok e) {n : Nat}
    (hn : n < m.length) :
    (e.words.drop n).flatMap (·.bytes) <+:
      (Row.bytesIn settings.isa names row.place (Listing.ofLines settings lines).rows).drop
        ((row.address + BitVec.ofNat 32 (4 * n)).toNat - (settings.base row.place).toNat) := by
  have hlength : n ≤ e.words.length := by
    obtain ⟨b, -, rfl⟩ := Encoding.ofStatement_eq_ok (Listing.selected_of_mem hrow m args hplan) he
    rw [Mnemonic.length_words]
    omega
  have hbytes : row.bytes settings.isa names = e.words.flatMap (·.bytes) := by
    simp only [Row.bytes, hplan, Plan.bytes, he]
  have hbase : (settings.base row.place).toNat ≤ row.address.toNat := by
    obtain ⟨before, after, -, hstands⟩ := Listing.stands_of_mem hrow
    rw [hstands.toNat_address]
    omega
  have hdrop := (Listing.bytes_prefix hrow names).drop (4 * n)
  rw [hbytes, Mnemonic.drop_flatMap_bytes _ _ hlength, List.drop_drop] at hdrop
  rwa [(toNat_wordAddress hrow hplan hn).1, Nat.sub_add_comm hbase]

end FieldWord

/-! ### The relocations of a module -/

/-- A relocation of a row is at a word of its section that is still without its number. -/
structure Row.Relocates (settings : Settings) (module : Module) (row : Row) (r : Relocation) :
    Prop where
  inside : (settings.base row.place).toNat ≤ r.address.toNat ∧
    r.address.toNat + 4 ≤ (settings.base row.place).toNat + (module.bytes row.place).size
  /-- The field of the expression is zero there, and for a full value in the next word as well. -/
  blank : ∃ m args kind arg, ∃ words : List Instruction, row.plan = .instruction m args ∧
    m.expression? (Line.splitArgs args) = some (kind, arg) ∧
    words.flatMap (·.bytes) <+: (module.bytes row.place).toList.drop
      (r.address.toNat - (settings.base row.place).toNat) ∧
    words.map (fun i => kind.read i) = if kind = .full then [0, 0] else [0]

namespace Listing

variable {settings : Settings} {lines : List Line}

theorem relocates {row : Row} {r : Relocation} (hrow : row ∈ (ofLines settings lines).rows)
    (h : row.relocation? settings.isa (ofLines settings lines).names = some r) :
    row.Relocates settings ((ofLines settings lines).module settings) r := by
  obtain ⟨m, args, e, hplan, -, hselect, he, hsymbol, haddress⟩ :=
    Row.relocation?_eq_some (selected_of_mem hrow) h
  obtain ⟨htoNat, hword, hend⟩ := toNat_fieldAddress hrow hplan
  obtain ⟨before, after, -, hstands⟩ := stands_of_mem hrow
  have hstart := hstands.toNat_address
  have hsize : (((ofLines settings lines).module settings).bytes row.place).size =
      Row.sizeIn row.place (ofLines settings lines).rows := by
    rw [← Array.length_toList, bytes_module, Row.length_bytesIn fun _ => selected_of_mem]
  refine ⟨?_, ?_⟩
  · rw [haddress, htoNat, hsize]
    omega
  · obtain ⟨kind, arg, hx, hread⟩ := Encoding.read_of_symbol hselect he hsymbol
    refine ⟨m, args, kind, arg, e.words.drop m.fieldIndex, hplan, hx, ?_, hread⟩
    rw [bytes_module, haddress]
    exact words_prefix hrow hplan he (fieldIndex_lt_of_mem hrow hplan)

/-- Relocations of one section are in the order of their addresses. -/
theorem pairwise_relocations (place : Section) :
    (((ofLines settings lines).rows.filter (·.place = place)).filterMap
      (·.relocation? settings.isa (ofLines settings lines).names)).Pairwise
        fun r s => r.address < s.address := by
  rw [List.pairwise_filterMap, List.pairwise_filter]
  refine (pairwise_rows settings lines).imp_of_mem ?_
  intro x y hx hy hxy hplace hplace' r hr s hs
  obtain ⟨m, args, -, hplan, -, -, -, -, haddress⟩ :=
    Row.relocation?_eq_some (selected_of_mem hx) hr
  obtain ⟨m', args', -, hplan', -, -, -, -, haddress'⟩ :=
    Row.relocation?_eq_some (selected_of_mem hy) hs
  obtain ⟨htoNat, hword, -⟩ := toNat_fieldAddress hx hplan
  obtain ⟨htoNat', -, -⟩ := toNat_fieldAddress hy hplan'
  -- each relocation lies within its row, and the rows of a section do not overlap
  have hbefore := hxy ((of_decide_eq_true hplace).trans (of_decide_eq_true hplace').symm)
  rw [BitVec.lt_def, haddress, haddress', htoNat, htoNat']
  omega

end Listing

/-- The relocations of a module are those of its rows, in the order of the lines. Each is at a word
of the section of its row that has a zero for the expression, and those of one section have
increasing addresses. -/
theorem relocations_assemble (source : String) (settings : Settings) :
    let l := Listing.ofLines settings (Source.read source).lines
    ∃ a, assemble source settings = .ok a ∧
      l.rows.map (·.line) = (Source.read source).lines ∧
      a.module.relocations = l.rows.filterMap (·.relocation? settings.isa a.module.symbols) ∧
      (∀ row ∈ l.rows, ∀ r, row.relocation? settings.isa a.module.symbols = some r →
        row.Relocates settings a.module r) ∧
      ∀ place, ((l.rows.filter (·.place = place)).filterMap
        (·.relocation? settings.isa a.module.symbols)).Pairwise
          fun r s => r.address < s.address := by
  intro l
  obtain ⟨trace, hassemble⟩ := assemble_eq source settings rfl
  refine ⟨_, hassemble, Listing.map_line_rows settings _, ?_, ?_, ?_⟩
  · exact List.filterMap_congr fun row hrow =>
      Row.relocation_realized (Listing.selected_of_mem hrow)
  · exact fun row hrow r hr => Listing.relocates hrow hr
  · exact fun place => Listing.pairwise_relocations place

end Mips
