import Mips.Proofs.Evaluation
import Mips.Proofs.Outcome
import Mips.Proofs.Text

/-!
# Appending lines

Lines that are appended to a source come too late for the layout of the lines before them. Rows keep
their place, names their address and directives their bytes; only instructions are encoded again, with
more names known. An instruction that still waits for a name then waited before, so that no new
relocation can come up in the old lines. Its symbol may be another one.

    j near + far      waits for near        j near + far      waits for far
                                            near:
-/

namespace Mips

/-! ### Lines of a joined text -/

namespace Text

theorem dropReturn_of_not_mem {line : List Char} (h : '\r' ∉ line) : dropReturn line = line := by
  unfold dropReturn
  split
  · next hlast => exact absurd (List.mem_of_getLast? hlast) h
  · rfl

theorem lines_intercalate_cons {text : List Char} (hfeed : '\n' ∉ text) (hreturn : '\r' ∉ text)
    (next : List Char) (rest : List (List Char)) :
    lines (['\n'].intercalate (text :: next :: rest)) =
      text :: lines (['\n'].intercalate (next :: rest)) := by
  rw [List.intercalate_cons_cons, List.append_assoc, List.singleton_append, lines_feed hfeed,
    dropReturn_of_not_mem hreturn]

/-- The lines of the longer text are those of the shorter one, the empty last line that the shorter
one does not show, and lines behind it. -/
theorem lines_intercalate_append : ∀ (texts texts' : List (List Char)),
    (∀ text ∈ texts, '\n' ∉ text ∧ '\r' ∉ text) →
    ∃ gap rest, lines (['\n'].intercalate (texts ++ texts')) =
        lines (['\n'].intercalate texts) ++ (gap ++ rest) ∧
      (∀ text ∈ gap, text = []) ∧
      (rest = [] ∨ (lines (['\n'].intercalate texts)).length + gap.length = texts.length)
  | [], texts', _ => ⟨[], lines (['\n'].intercalate texts'), rfl, by simp, Or.inr rfl⟩
  | [text], [], _ => ⟨[], [], by simp, by simp, Or.inl rfl⟩
  | [text], next :: texts', h => by
    obtain ⟨hfeed, hreturn⟩ := h text List.mem_cons_self
    rw [List.singleton_append, lines_intercalate_cons hfeed hreturn, List.intercalate_singleton,
      lines_of_not_mem hfeed]
    by_cases hempty : text = []
    · exact ⟨[[]], lines (['\n'].intercalate (next :: texts')), by simp [hempty], by simp,
        Or.inr (by simp [hempty])⟩
    · exact ⟨[], lines (['\n'].intercalate (next :: texts')), by simp [hempty], by simp,
        Or.inr (by simp [hempty])⟩
  | text :: next :: texts, texts', h => by
    obtain ⟨hfeed, hreturn⟩ := h text List.mem_cons_self
    obtain ⟨gap, rest, hlines, hgap, hlength⟩ := lines_intercalate_append (next :: texts) texts'
      fun t ht => h t (List.mem_cons_of_mem _ ht)
    rw [List.cons_append, List.cons_append, lines_intercalate_cons hfeed hreturn,
      lines_intercalate_cons hfeed hreturn, ← List.cons_append, hlines]
    refine ⟨gap, rest, rfl, hgap, hlength.imp_right fun hsum => ?_⟩
    rw [List.length_cons, Nat.add_right_comm, hsum]
    rfl

end Text

/-- The appended lines follow; those with a number of the first source are empty. -/
theorem Source.lines_intercalate_append {ls : List String} (ms : List String)
    (h : ∀ text ∈ ls, '\n' ∉ text.toList ∧ '\r' ∉ text.toList) :
    ∃ more, (read ("\n".intercalate (ls ++ ms))).lines =
        (read ("\n".intercalate ls)).lines ++ more ∧
      ∀ line ∈ more, line.number ≤ ls.length → line.statement = none := by
  obtain ⟨gap, rest, hlines, hgap, hrest⟩ :=
    Text.lines_intercalate_append (ls.map String.toList) (ms.map String.toList) (by simpa using h)
  have hfeed : "\n".toList = ['\n'] := by decide
  rw [lines_read, lines_read, String.toList_intercalate, String.toList_intercalate, hfeed,
    List.map_append, hlines, linesFrom_append]
  refine ⟨_, rfl, fun line hline hnumber => ?_⟩
  rw [linesFrom_append, List.mem_append] at hline
  rcases hline with hline | hline
  · obtain ⟨before, text, after, hsplit, -, hread⟩ := exists_text hline
    have hempty : text = [] := hgap text (by simp [hsplit])
    rw [hempty, Line.read_nil] at hread
    rw [← Option.some.inj hread]
  · have hbehind := number_of_mem_linesFrom hline
    rcases hrest with rfl | hlength
    · simp [linesFrom] at hline
    · rw [List.length_map] at hlength
      omega

/-! ### Rows -/

/-- Appended lines add rows and names. -/
theorem Listing.rows_append (settings : Settings) (lines more : List Line) :
    ∃ rest, (ofLines settings (lines ++ more)).rows = (ofLines settings lines).rows ++ rest ∧
      rest.map (·.line) = more ∧
      SymbolTable.Grows (ofLines settings lines).names (ofLines settings (lines ++ more)).names := by
  rw [ofLines_append]
  refine ⟨_, (placeLines_image settings more _).2, ?_, grows_foldl settings more _⟩
  rw [List.map_map]
  exact Layout.map_line_placeLines settings.isa more _

theorem Listing.size_module (settings : Settings) (lines : List Line) (place : Section) :
    (((ofLines settings lines).module settings).bytes place).size =
      Row.sizeIn place (ofLines settings lines).rows := by
  rw [← Array.length_toList, bytes_module, Row.length_bytesIn fun _ => selected_of_mem]

/-- The bytes of a directive are in the module. -/
theorem Listing.getElem?_directive {settings : Settings} {lines : List Line} {row : Row}
    (h : row ∈ (ofLines settings lines).rows) {d : Directive} (hd : row.plan = .directive d)
    {k : Nat} {byte : UInt8} (hk : (d.bytes row.address)[k]? = some byte) :
    (((ofLines settings lines).module settings).bytes row.place)[row.address.toNat -
      (settings.base row.place).toNat + k]? = some byte := by
  obtain ⟨tail, htail⟩ := bytes_prefix h (ofLines settings lines).names
  have hbytes : row.bytes settings.isa (ofLines settings lines).names = d.bytes row.address := by
    rw [Row.bytes, hd]
    rfl
  rw [hbytes] at htail
  have hlt : k < (d.bytes row.address).length := (List.getElem?_eq_some_iff.1 hk).1
  rw [← Array.getElem?_toList, bytes_module, ← List.getElem?_drop, ← htail,
    List.getElem?_append_left hlt, hk]

/-! ### Instructions with fewer names known -/

namespace Encoding

open SymbolTable

variable {t u : SymbolTable} {address branch : Word}

theorem value_of_grown (h : Grows t u) {arg : List Token} {e : Expr} {v : Option Word}
    (hv : value ⟨u, address, branch⟩ arg = .ok (e, v)) :
    ∃ w, value ⟨t, address, branch⟩ arg = .ok (e, w) := by
  obtain ⟨hparse, heval⟩ := value_eq_ok hv
  rcases Expr.eval_of_grown h heval with hw | hw
  · exact ⟨none, value_eq hparse hw⟩
  · exact ⟨v, value_eq hparse hw⟩

/-- Apart from operands in memory, an operand that can be bound can be with fewer names. -/
theorem bindOperand_of_grown (h : Grows t u) {kind : OperandKind} (hk : kind ≠ .memory)
    {b₁ b₂ : Bound} {arg : List Token}
    (hb : bindOperand ⟨u, address, branch⟩ b₁ kind arg = .ok b₂) (b : Bound) :
    ∃ b', bindOperand ⟨t, address, branch⟩ b kind arg = .ok b' := by
  have hregister : ∀ f g : Register → Bound, (register arg).map f = .ok b₂ →
      ∃ b', (register arg).map g = .ok b' := by
    intro f g hf
    cases hr : register arg with
    | error q => simp [hr, Except.map] at hf
    | ok r => exact ⟨g r, rfl⟩
  cases hexpression : kind.isExpression with
  | true =>
    obtain ⟨e, v, hv, -⟩ := bindOperand_expression hexpression hb
    obtain ⟨w, hw⟩ := value_of_grown h hv
    exact exists_bindOperand hexpression hw b
  | false =>
    cases kind with
    | rd | rs | rt => exact hregister _ _ hb
    | memory => exact absurd rfl hk
    | _ => simp [OperandKind.isExpression] at hexpression

theorem bindAll_of_grown (h : Grows t u) : ∀ {args : List (OperandKind × List Token)},
    (∀ x ∈ args, x.1 ≠ .memory) → ∀ {b₁ b₂ : Bound},
    bindAll ⟨u, address, branch⟩ b₁ args = .ok b₂ →
    ∀ b, ∃ b', bindAll ⟨t, address, branch⟩ b args = .ok b'
  | [], _, _, _, _, b => ⟨b, rfl⟩
  | (kind, arg) :: rest, hk, b₁, b₂, hb, b => by
    simp only [bindAll] at hb ⊢
    split at hb
    · simp at hb
    · next b₃ hb₃ =>
      obtain ⟨b', hb'⟩ := bindOperand_of_grown h (hk _ List.mem_cons_self) hb₃ b
      rw [hb']
      exact bindAll_of_grown h (fun x hx => hk x (List.mem_cons_of_mem _ hx)) hb b'

end Encoding

/-- A name that is awaited with more names known is awaited with fewer, if not an earlier one. -/
theorem Mnemonic.awaited?_of_grown {t u : SymbolTable} (h : SymbolTable.Grows t u) {m : Mnemonic}
    {args : List (List Token)} {symbol : String} (hu : m.awaited? u args = some symbol) :
    ∃ symbol', m.awaited? t args = some symbol' := by
  obtain ⟨⟨kind, arg⟩, hx, hfind⟩ := Option.bind_eq_some_iff.1 hu
  have hnone : t.address? symbol = none := by
    cases ha : t.address? symbol with
    | none => rfl
    | some a =>
      have hknown := List.find?_some hfind
      simp [h.address symbol a ha] at hknown
  have hsome : ((Token.names arg).find? fun name => (t.address? name).isNone).isSome = true :=
    List.find?_isSome.2 ⟨symbol, List.mem_of_find?_eq_some hfind, by simp [hnone]⟩
  obtain ⟨symbol', hsymbol'⟩ := Option.isSome_iff_exists.1 hsome
  exact ⟨symbol', Option.bind_eq_some_iff.2 ⟨(kind, arg), hx, hsymbol'⟩⟩

/-- A row that waits for a name did so with fewer names known, in the same field. -/
theorem Row.relocation?_of_grown {isa : Isa} {row : Row} (hselected : row.Selected isa)
    {t u : SymbolTable} (h : SymbolTable.Grows t u) {r : Relocation}
    (hr : row.relocation? isa u = some r) :
    ∃ r', row.relocation? isa t = some r' ∧ r'.address = r.address := by
  obtain ⟨m, args, e, hplan, hm, hselect, he, hsymbol, -⟩ := relocation?_eq_some hselected hr
  have hawaited : m.awaited? u (Line.splitArgs args) = some r.symbol :=
    (Encoding.symbol_ofStatement hselect he).symm.trans hsymbol
  -- it has an expression, so no operand in memory, and its operands can be bound
  have hplain : ∀ x ∈ m.operands.zip (Line.splitArgs args), x.1 ≠ .memory := by
    obtain ⟨⟨kind, arg⟩, hx, -⟩ := Option.bind_eq_some_iff.1 hawaited
    have hkind := (List.of_mem_zip (List.mem_of_find?_eq_some hx)).1
    have hexpression := List.find?_some hx
    have hnot := Mnemonic.ne_memory_of_expression m hm kind hkind hexpression
    intro x hmem heq
    exact hnot (heq ▸ (List.of_mem_zip hmem).1)
  obtain ⟨b, hb, -⟩ := Encoding.ofStatement_eq_ok hselect he
  obtain ⟨b', hb'⟩ := Encoding.bindAll_of_grown h hplain hb {}
  obtain ⟨symbol', hsymbol'⟩ := Mnemonic.awaited?_of_grown h hawaited
  unfold relocation? at hr ⊢
  rw [hplan] at hr ⊢
  simp only [Encoding.ofStatement_eq hselect, hb, hb', hsymbol', hawaited, Option.map_some,
    Option.some.injEq] at hr ⊢
  exact ⟨_, rfl, by rw [← hr]⟩

/-! ### Two assemblies -/

/-- The rows of a listing are behind the bytes and the relocations of an assembly. -/
structure Listing.Describes (settings : Settings) (l : Listing) (a : Assembly) : Prop where
  symbols : a.module.symbols = l.names
  bytes : ∀ place, (a.module.bytes place).toList =
    Row.bytesIn settings.isa a.module.symbols place l.rows
  relocations : a.module.relocations =
    l.rows.filterMap (·.relocation? settings.isa a.module.symbols)

/-- The listing of a source describes what is assembled from it. -/
theorem Listing.exists_describes (source : String) (settings : Settings) :
    ∃ a, assemble source settings = .ok a ∧
      a.module = (ofLines settings (Source.read source).lines).module settings ∧
      (ofLines settings (Source.read source).lines).Describes settings a := by
  obtain ⟨a, ha⟩ := exists_assembly source settings
  have hmodule := module_assemble ha
  refine ⟨a, ha, hmodule, ?_, ?_, ?_⟩
  · rw [hmodule]
    rfl
  · intro place
    rw [hmodule]
    exact bytes_module ..
  · rw [hmodule]
    exact relocations_module ..

/-- The rows `rows` of the assembly `a` are not disturbed in `b`, which has the rows `rows'`; the
lines up to number `count` are those of `a`. -/
structure Assembly.Undisturbed (settings : Settings) (count : Nat) (rows rows' : List Row)
    (a b : Assembly) : Prop where
  address : ∀ name address, a.module.symbols.address? name = some address →
    b.module.symbols.address? name = some address
  size : ∀ place, (a.module.bytes place).size ≤ (b.module.bytes place).size
  /-- The bytes of a directive are at the same offset in both. -/
  data : ∀ row ∈ rows, ∀ d, row.plan = .directive d →
    ∀ k byte, (d.bytes row.address)[k]? = some byte →
      let offset := row.address.toNat - (settings.base row.place).toNat + k
      (a.module.bytes row.place)[offset]? = some byte ∧
        (b.module.bytes row.place)[offset]? = some byte
  /-- An old line with a relocation in the longer source has one in the shorter source. -/
  relocation : ∀ row ∈ rows', row.line.number ≤ count →
    ∀ r, row.relocation? settings.isa b.module.symbols = some r → row ∈ rows ∧
      ∃ r', row.relocation? settings.isa a.module.symbols = some r' ∧ r'.address = r.address

/-- Whatever is appended, it does not disturb what the lines before it gave. -/
theorem extension_assemble (settings : Settings) (ls ms : List String)
    (h : ∀ line ∈ ls, '\n' ∉ line.toList ∧ '\r' ∉ line.toList) :
    let l := Listing.ofLines settings (Source.read ("\n".intercalate ls)).lines
    let l' := Listing.ofLines settings (Source.read ("\n".intercalate (ls ++ ms))).lines
    ∃ a b, assemble ("\n".intercalate ls) settings = .ok a ∧
      assemble ("\n".intercalate (ls ++ ms)) settings = .ok b ∧
      l.Describes settings a ∧ l'.Describes settings b ∧
      a.Undisturbed settings ls.length l.rows l'.rows b := by
  intro l l'
  obtain ⟨a, ha, hamodule, hadescribes⟩ :=
    Listing.exists_describes ("\n".intercalate ls) settings
  obtain ⟨b, hb, hbmodule, hbdescribes⟩ :=
    Listing.exists_describes ("\n".intercalate (ls ++ ms)) settings
  refine ⟨a, b, ha, hb, hadescribes, hbdescribes, ?_⟩
  obtain ⟨more, hlines, hblank⟩ := Source.lines_intercalate_append ms h
  obtain ⟨rest, hrows, hrest, hgrows⟩ :=
    Listing.rows_append settings (Source.read ("\n".intercalate ls)).lines more
  rw [← hlines] at hrows hgrows
  have hgrows' : SymbolTable.Grows a.module.symbols b.module.symbols := by
    rw [hadescribes.symbols, hbdescribes.symbols]
    exact hgrows
  refine ⟨hgrows'.address, ?_, ?_, ?_⟩
  · intro place
    rw [hamodule, hbmodule, Listing.size_module, Listing.size_module, hrows]
    simp [Row.sizeIn]
  · intro row hrow d hd k byte hk offset
    have hrow' : row ∈ l'.rows := by
      rw [hrows]
      exact List.mem_append_left _ hrow
    rw [hamodule, hbmodule]
    exact ⟨Listing.getElem?_directive hrow hd hk, Listing.getElem?_directive hrow' hd hk⟩
  · intro row hrow hnumber r hr
    have hselected : row.Selected settings.isa := Listing.selected_of_mem hrow
    obtain ⟨m, args, e, hplan, -⟩ := Row.relocation?_eq_some hselected hr
    have hstatement := Listing.statement_of_plan hrow hplan
    refine ⟨?_, Row.relocation?_of_grown hselected hgrows' hr⟩
    rw [hrows, List.mem_append] at hrow
    refine hrow.resolve_right fun hmem => ?_
    -- a further line with a number of the old ones is empty
    have hline : row.line ∈ more := hrest ▸ List.mem_map_of_mem hmem
    rw [hblank row.line hline hnumber] at hstatement
    simp at hstatement

/-- The appended label is the one that was awaited, so that the next name is awaited in its place; the
byte behind the jump stays where it is. -/
theorem near_label_appended :
    ∃ (a b : Assembly) (r : Relocation),
      assemble ("\n".intercalate ["j near + far", ".byte 7"]) {} = .ok a ∧
      assemble ("\n".intercalate (["j near + far", ".byte 7"] ++ ["near:"])) {} = .ok b ∧
      a.module.relocations = [⟨0x400000, "near"⟩] ∧ b.module.relocations = [⟨0x400000, "far"⟩] ∧
      r ∈ a.module.relocations ∧ r.address = 0x400000 ∧
      a.module.text[4]? = some 7 ∧ b.module.text[4]? = some 7 := by
  let jump : Row :=
    ⟨⟨1, none, some (.instruction "j" [⟨.name "near", "near"⟩, ⟨.operator .add, "+"⟩,
      ⟨.name "far", "far"⟩])⟩, .text, 0x400000, .instruction (.real "j" (.jump 2) [.target])
      [⟨.name "near", "near"⟩, ⟨.operator .add, "+"⟩, ⟨.name "far", "far"⟩]⟩
  let data : Row :=
    ⟨⟨2, none, some (.directive "byte" [⟨.number 7, "7"⟩])⟩, .text, 0x400004,
      .directive (.data [7])⟩
  obtain ⟨a, b, ha, hb, hadescribes, hbdescribes, hundisturbed⟩ :=
    extension_assemble {} ["j near + far", ".byte 7"] ["near:"] (by decide +kernel)
  have hjump : jump.relocation? .mips32 b.module.symbols = some ⟨0x400000, "far"⟩ := by
    rw [hbdescribes.symbols]
    decide +kernel
  obtain ⟨hmem, r, hr, haddress⟩ :=
    hundisturbed.relocation jump (by decide +kernel) (by decide) _ hjump
  have hdata := hundisturbed.data data (by decide +kernel) (.data [7]) rfl 0 7 rfl
  have hoffset : data.address.toNat - (Settings.base {} data.place).toNat + 0 = 4 := by decide
  rw [hoffset] at hdata
  have hafacts : (assemble ("\n".intercalate ["j near + far", ".byte 7"]) {}).toOption.map
      (·.module.relocations) = some [⟨0x400000, "near"⟩] := by decide +kernel
  have hbfacts : (assemble ("\n".intercalate (["j near + far", ".byte 7"] ++ ["near:"]))
      {}).toOption.map (·.module.relocations) = some [⟨0x400000, "far"⟩] := by decide +kernel
  rw [ha] at hafacts
  rw [hb] at hbfacts
  refine ⟨a, b, r, ha, hb, Option.some.inj hafacts, Option.some.inj hbfacts, ?_, haddress,
    hdata⟩
  rw [hadescribes.relocations]
  exact List.mem_filterMap.2 ⟨jump, hmem, hr⟩

end Mips
