import Mips.Proofs.Constancy
import Mips.Proofs.Inline
import Mips.Proofs.Origin
import Mips.Proofs.Reading

/-!
# Legal names

A name comes into a module as a label, as a constant, as an operand that a relocation waits for, or
as the argument of a directive that exports it. A label is any text before a colon and is checked.
The others are tokens, and a token that is a name was cut in such a way that the check holds of it
(`Token.legalName_lexeme`). So only legal names are left in a module, and the check of an exported
name never fails.

    2x: k = 4     2x is refused, k is a token
    .globl ext    ext is a token
    j far + k     far is a token
-/

namespace Mips

/-- A name that may stand in a module. -/
structure LegalName (name : String) : Prop where
  nonempty : name ≠ ""
  first : ∀ c ∈ name.toList.head?, c.isDigit = false
  chars : ∀ c ∈ name.toList, c.isAlphanum = true ∨ c = '_'

theorem isNameChar_iff {c : Char} : isNameChar c = true ↔ c.isAlphanum = true ∨ c = '_' := by
  simp [isNameChar]

/-- The check says what a legal name is. -/
theorem isLegalName_iff {name : String} : isLegalName name = true ↔ LegalName name := by
  unfold isLegalName
  split
  · next hnil =>
    refine ⟨fun h => by simp at h, fun h => ?_⟩
    exact absurd (String.toList_eq_nil_iff.1 hnil) h.nonempty
  · next c cs hcs =>
    rw [Bool.and_eq_true, Bool.not_eq_true', List.all_eq_true]
    constructor
    · rintro ⟨hfirst, hchars⟩
      refine ⟨?_, ?_, fun x hx => isNameChar_iff.1 (hchars x (hcs ▸ hx))⟩
      · rintro rfl
        simp at hcs
      · rw [hcs]
        rintro x hx
        rwa [← Option.some.inj hx]
    · rintro ⟨-, hfirst, hchars⟩
      rw [hcs] at hfirst hchars
      exact ⟨hfirst c rfl, fun x hx => isNameChar_iff.2 (hchars x hx)⟩

/-! ### Tokens -/

namespace Token

theorem mem_names {name : String} {tokens : List Token} :
    name ∈ names tokens ↔ ∃ t ∈ tokens, t.kind = .name name := by
  have hname : ∀ t : Token, t.name? = some name ↔ t.kind = .name name := by
    rintro ⟨kind, text⟩
    cases kind <;> simp [name?]
  simp only [names, List.mem_filterMap, hname]

/-- A name starts with no digit and takes in name characters only. -/
theorem legalName_lexeme {c : Char} {rest : List Char} {name : String} {n : Nat}
    (h : lexeme c rest = .ok (.name name, n)) : LegalName name := by
  obtain ⟨hstart, -⟩ := lexeme_name h
  have hname : name = String.ofList (c :: rest.takeWhile isNameChar) := by
    rw [lexeme, if_pos hstart] at h
    exact (TokenKind.name.inj (Prod.mk.inj (Except.ok.inj h)).1).symm
  rw [hname]
  refine ⟨by simp, ?_, ?_⟩
  · rw [String.toList_ofList]
    rintro x hx
    obtain rfl : c = x := Option.some.inj hx
    -- a digit starts a number
    cases hdigit : c.isDigit with
    | false => rfl
    | true => simp [isNameStart_of_isDigit hdigit] at hstart
  · rw [String.toList_ofList]
    rintro x hx
    rcases List.mem_cons.1 hx with rfl | hx
    · exact isNameChar_iff.1 (isNameChar_of_isNameStart hstart)
    · exact isNameChar_iff.1 (List.all_eq_true.1 List.all_takeWhile x hx)

theorem legalName_of_cut {line : List Char} {tokens : List Token} (h : Cut line tokens) :
    ∀ name ∈ names tokens, LegalName name := by
  induction h with
  | finish hgap => simp [names]
  | comment rest hgap => simp [names]
  | @token gap c text rest kind tokens hgap hspace hcomment hlexeme _ ih =>
    intro name hname
    obtain ⟨t, ht, hkind⟩ := mem_names.1 hname
    rcases List.mem_cons.1 ht with rfl | ht
    · obtain rfl : kind = .name name := hkind
      exact legalName_lexeme (hlexeme rest (.of_head? rfl))
    · exact ih name (mem_names.2 ⟨t, ht, hkind⟩)

end Token

/-! ### Lines -/

/-- The names in a statement: that of a constant, and those among its tokens. -/
def Statement.names : Statement → List String
  | .instruction _ args | .directive _ args => Token.names args
  | .constant name value => name :: Token.names value

namespace Line

/-- All names on the line are legal. -/
structure Named (line : Line) : Prop where
  label : ∀ name, line.label = some name → LegalName name
  statement : ∀ s, line.statement = some s → ∀ name ∈ s.names, LegalName name

theorem mem_names_of_statement? {tokens : List Token} {s : Statement}
    (h : statement? tokens = .ok (some s)) : ∀ name ∈ s.names, name ∈ Token.names tokens := by
  have hrest : ∀ (t : Token) (rest : List Token), ∀ name ∈ Token.names rest,
      name ∈ Token.names (t :: rest) := by
    intro t rest name hname
    obtain ⟨t', ht', hkind⟩ := Token.mem_names.1 hname
    exact Token.mem_names.2 ⟨t', List.mem_cons_of_mem t ht', hkind⟩
  intro name hname
  unfold statement? at h
  split at h
  · simp at h
  · next first rest =>
    obtain ⟨kind, text⟩ := first
    dsimp only at h
    split at h
    · next constant assignText value =>
      obtain rfl := Option.some.inj (Except.ok.inj h)
      rcases List.mem_cons.1 hname with rfl | hname
      · exact Token.mem_names.2 ⟨_, List.mem_cons_self, rfl⟩
      · exact hrest _ _ name (hrest _ value name hname)
    · obtain rfl := Option.some.inj (Except.ok.inj h)
      exact hrest _ rest name hname
    · obtain rfl := Option.some.inj (Except.ok.inj h)
      exact hrest _ rest name hname
    · simp at h

theorem legalName_legalLabel {label : Option (List Char)} {name : String}
    (h : (legalLabel label).1 = some name) : LegalName name := by
  unfold legalLabel at h
  split at h
  · simp at h
  · split at h
    · next hlegal =>
      obtain rfl := Option.some.inj h
      exact isLegalName_iff.1 hlegal
    · simp at h

/-- The label was checked, and the statement is made of tokens. -/
theorem named_read {n : Nat} {text : List Char} {line : Line} (h : (read n text).1 = some line) :
    line.Named := by
  unfold read at h
  dsimp only at h
  split at h
  · simp at h
  · next tokens hscan =>
    have hlegal := Token.legalName_of_cut (Token.cut_of_scan hscan)
    split at h
    · next statement hstatement =>
      obtain rfl := Option.some.inj h
      refine ⟨fun name hname => legalName_legalLabel hname, ?_⟩
      rintro s rfl name hname
      exact hlegal name (mem_names_of_statement? hstatement name hname)
    · obtain rfl := Option.some.inj h
      exact ⟨fun name hname => legalName_legalLabel hname, fun s hs => by simp at hs⟩

theorem mem_of_mem_cutArgs {tokens arg : List Token} {t : Token} (harg : arg ∈ cutArgs tokens)
    (ht : t ∈ arg) : t ∈ tokens := by
  induction tokens generalizing arg with
  | nil =>
    rw [List.mem_singleton.1 harg] at ht
    exact ht
  | cons first rest ih =>
    rw [cutArgs_cons] at harg
    split at harg
    · rcases List.mem_cons.1 harg with rfl | harg
      · simp at ht
      · exact List.mem_cons_of_mem first (ih harg ht)
    · split at harg
      · rw [List.mem_singleton.1 harg] at ht
        rw [List.mem_singleton.1 ht]
        exact List.mem_cons_self
      · next arg' args hrest =>
        rcases List.mem_cons.1 harg with rfl | harg
        · rcases List.mem_cons.1 ht with rfl | ht
          · exact List.mem_cons_self
          · exact List.mem_cons_of_mem first (ih (hrest ▸ List.mem_cons_self) ht)
        · exact List.mem_cons_of_mem first (ih (hrest ▸ List.mem_cons_of_mem _ harg) ht)

theorem mem_names_of_splitArgs {tokens arg : List Token} (harg : arg ∈ splitArgs tokens) :
    ∀ name ∈ Token.names arg, name ∈ Token.names tokens := by
  intro name hname
  obtain ⟨t, ht, hkind⟩ := Token.mem_names.1 hname
  cases tokens with
  | nil => simp [splitArgs] at harg
  | cons first rest => exact Token.mem_names.2 ⟨t, mem_of_mem_cutArgs harg ht, hkind⟩

end Line

theorem Source.named_read {source : String} {line : Line} (h : line ∈ (read source).lines) :
    line.Named := by
  rw [lines_read] at h
  obtain ⟨before, text, after, -, -, hread⟩ := exists_text h
  exact Line.named_read hread

/-! ### Directives that export a name -/

namespace Directive

variable {symbols : SymbolTable} {address : Word} {tokens : List Token}

theorem legalName_exporting {arg : List Token} {name : String}
    (h : exporting arg = .ok (.global name)) : LegalName name := by
  unfold exporting at h
  split at h
  · split at h
    · next hlegal =>
      obtain rfl := Directive.global.inj (Except.ok.inj h)
      exact isLegalName_iff.1 hlegal
    · simp at h
  · simp at h

/-- Only one directive exports a name, and it checks it. -/
theorem legalName_of_read {keyword name : String}
    (h : (read symbols address keyword tokens).1 = some (.global name)) : LegalName name := by
  have hplain : ∀ place, (plain keyword (Line.splitArgs tokens) (.choose place)).1 ≠
      some (.global name) := by
    intro place
    unfold plain
    split <;> simp
  have hdata : ∀ (missing : Problem) (parts : List (List UInt8 × List Problem)),
      (if (Line.splitArgs tokens).isEmpty then (none, [missing]) else ofParts parts).1 ≠
        some (.global name) := by
    intro missing parts
    split <;> simp [ofParts]
  unfold read at h
  dsimp only at h
  split at h
  · exact absurd h (hplain .text)
  · exact absurd h (hplain .data)
  · obtain ⟨arg, -, hexport⟩ := exists_of_single h
    exact legalName_exporting hexport
  · obtain ⟨v, -, halign⟩ := values_of_single h
    exact absurd (of_alignTo halign) (by simp)
  · obtain ⟨v, -, hreserve⟩ := values_of_single h
    exact absurd (of_reserveBytes hreserve) (by simp)
  · exact absurd h (hdata _ _)
  · exact absurd h (hdata _ _)
  · exact absurd h (hdata _ _)
  · exact absurd h (hdata _ _)
  · exact absurd h (hdata _ _)
  · simp at h

theorem exporting_ne_illegal {arg : List Token} (h : ∀ name ∈ Token.names arg, LegalName name)
    (name : String) : exporting arg ≠ .error (.illegalSymbol name) := by
  intro hexport
  unfold exporting at hexport
  split at hexport
  · next name' text =>
    have hlegal : LegalName name' :=
      h name' (Token.mem_names.2 ⟨_, List.mem_singleton_self _, rfl⟩)
    simp [isLegalName_iff.2 hlegal] at hexport
  · simp at hexport

/-- No exported token is refused for its name. -/
theorem illegal_not_mem_read {keyword : String} (h : ∀ name ∈ Token.names tokens, LegalName name)
    (name : String) : .illegalSymbol name ∉ (read symbols address keyword tokens).2 := by
  intro hmem
  have hkeyword : keyword = "globl" := by
    simpa [Problem.concerns] using concerns_read symbols address keyword tokens _ hmem
  subst hkeyword
  change .illegalSymbol name ∈ (single "globl" (Line.splitArgs tokens) exporting).2 at hmem
  rcases hargs : Line.splitArgs tokens with _ | ⟨arg, _ | ⟨arg', args⟩⟩
  · simp [hargs, single] at hmem
  · have harg : arg ∈ Line.splitArgs tokens := by simp [hargs]
    have hlegal : ∀ name ∈ Token.names arg, LegalName name := fun name hname =>
      h name (Line.mem_names_of_splitArgs harg name hname)
    rw [hargs] at hmem
    simp only [single] at hmem
    cases hexport : exporting arg with
    | ok d => simp [hexport] at hmem
    | error problem =>
      rw [hexport] at hmem
      obtain rfl := List.mem_singleton.1 hmem
      exact exporting_ne_illegal hlegal name hexport
  · simp [hargs, single] at hmem

end Directive

/-! ### Modules -/

/-- A name that is waited for is one of the names among the operands. -/
theorem Mnemonic.mem_names_of_awaited? {names : SymbolTable} {m : Mnemonic} {tokens : List Token}
    {name : String} (h : m.awaited? names (Line.splitArgs tokens) = some name) :
    name ∈ Token.names tokens := by
  obtain ⟨⟨kind, arg⟩, hexpression, hname⟩ := Option.bind_eq_some_iff.1 h
  have harg : arg ∈ Line.splitArgs tokens :=
    (List.of_mem_zip (List.mem_of_find?_eq_some hexpression)).2
  exact Line.mem_names_of_splitArgs harg name (List.mem_of_find?_eq_some hname)

namespace Listing

/-- The directive of a row was read from its line. -/
theorem directive_of_plan {isa : Isa} {names : SymbolTable} {address : Word} {hasRoom : Nat → Bool}
    {statement : Option Statement} {d : Directive}
    (h : plan isa names address hasRoom statement = .directive d) :
    ∃ keyword args, (Directive.read names address keyword args).1 = some d := by
  unfold plan at h
  split at h
  · split at h
    · split at h <;> simp at h
    · simp at h
  · next keyword args =>
    split at h
    · next d' hread =>
      split at h
      · obtain rfl := Plan.directive.inj h
        exact ⟨keyword, args, hread⟩
      · simp at h
    · simp at h
  · simp at h
  · simp at h

variable {settings : Settings} {lines : List Line}

theorem named_of_mem_rows (hlines : ∀ line ∈ lines, line.Named) :
    ∀ row ∈ (ofLines settings lines).rows, row.line.Named := by
  intro row hrow
  refine hlines row.line ?_
  rw [← map_line_rows settings lines]
  exact List.mem_map_of_mem hrow

theorem legalName_of_mem_names (hlines : ∀ line ∈ lines, line.Named) :
    ∀ s ∈ (ofLines settings lines).names.symbols, LegalName s.name := by
  rintro ⟨name, address, home, isGlobal⟩ hs
  have horigin : Row.Introduces _ name address home := introduces_ofLines settings _ _ hs
  cases horigin with
  | label hrow hlabel => exact (named_of_mem_rows hlines _ hrow).label name hlabel
  | constant v hrow hstatement =>
    exact (named_of_mem_rows hlines _ hrow).statement _ hstatement name List.mem_cons_self
  | @directive row hrow hplan =>
    obtain ⟨before, after, hsplit⟩ := List.append_of_mem hrow
    obtain ⟨l, -, hrow', -, -⟩ := rows_split settings lines hsplit
    rw [← hrow'] at hplan
    obtain ⟨keyword, args, hread⟩ := directive_of_plan hplan
    exact Directive.legalName_of_read hread

theorem legalName_of_mem_relocations (hlines : ∀ line ∈ lines, line.Named) :
    ∀ r ∈ ((ofLines settings lines).module settings).relocations, LegalName r.symbol := by
  intro r hr
  rw [relocations_module] at hr
  obtain ⟨row, hrow, hrelocation⟩ := List.mem_filterMap.1 hr
  obtain ⟨m, args, e, hplan, -, hselect, he, hsymbol, -⟩ :=
    Row.relocation?_eq_some (selected_of_mem hrow) hrelocation
  rw [Encoding.symbol_ofStatement hselect he] at hsymbol
  exact (named_of_mem_rows hlines row hrow).statement _ (statement_of_plan hrow hplan) r.symbol
    (Mnemonic.mem_names_of_awaited? hsymbol)

end Listing

theorem Assembly.illegal_not_mem {source : String} {settings : Settings} {a : Assembly}
    (h : assemble source settings = .ok a) (n : Nat) (name : String) :
    ⟨n, .illegalSymbol name⟩ ∉ a.diagnostics := by
  rw [diagnostics_assemble h rfl, Diagnostic.mem_byLine]
  simp only [List.mem_append, not_or]
  refine ⟨⟨⟨fun hread => ?_, fun hplaced => ?_⟩, fun hrealized => ?_⟩, fun hundefined => ?_⟩
  · rw [Source.diagnostics_read] at hread
    obtain ⟨text, -, hmem⟩ := Source.exists_of_mem_reportFrom hread
    simpa [Problem.concernsLine] using Line.concernsLine_read n text _ hmem
  · obtain ⟨p, hp, hd⟩ := List.mem_flatMap.1 hplaced
    obtain ⟨problem, hmem, hd⟩ := List.mem_map.1 hd
    obtain rfl : problem = .illegalSymbol name := congrArg Diagnostic.problem hd
    have hline : p.line ∈ (Source.read source).lines := by
      rw [← Layout.map_line_placeLines settings.isa (Source.read source).lines (.start settings)]
      exact List.mem_map_of_mem hp
    cases Layout.finding_placeLines hp hmem with
    | mnemonic hmnemonic => simp [Problem.refusesMnemonic] at hmnemonic
    | constant hconstant => simp [Problem.refusesConstant] at hconstant
    | directive hstatement hread =>
      have hlegal := (Source.named_read hline).statement _ hstatement
      exact Directive.illegal_not_mem_read hlegal name hread
  · obtain ⟨p, hp, hd⟩ := List.mem_flatMap.1 hrealized
    obtain ⟨problem, hmem, hd⟩ := List.mem_map.1 hd
    obtain rfl : problem = .illegalSymbol name := congrArg Diagnostic.problem hd
    have hselected := Listing.selected_of_mem (Layout.row_mem_rows settings hp)
    rcases Row.problem_realized hselected _ _ hmem with hoperand | ⟨field, v, hcut⟩
    · simp [Problem.blamesOperand] at hoperand
    · simp at hcut
  · obtain ⟨name', hname⟩ := undefinedSymbol_of_mem hundefined
    simp at hname

/-- Only legal names are in a module, as symbols or in relocations. A token is never refused as the
name of a symbol, so no line is reported for that. -/
theorem names_assemble (source : String) (settings : Settings) :
    (∃ a, assemble source settings = .ok a ∧
      (∀ s ∈ a.module.symbols.symbols, LegalName s.name) ∧
      (∀ r ∈ a.module.relocations, LegalName r.symbol) ∧
      ∀ d ∈ a.diagnostics, ∀ name, d.problem ≠ .illegalSymbol name) ∧
    ∀ line tokens, Token.scan line = .ok tokens → ∀ t ∈ tokens, ∀ name,
      Directive.exporting [t] ≠ .error (.illegalSymbol name) := by
  constructor
  · obtain ⟨a, hassemble⟩ := exists_assembly source settings
    have hlines : ∀ line ∈ (Source.read source).lines, line.Named :=
      fun _ hline => Source.named_read hline
    refine ⟨a, hassemble, ?_, ?_, ?_⟩
    · rw [module_assemble hassemble]
      exact Listing.legalName_of_mem_names hlines
    · rw [module_assemble hassemble]
      exact Listing.legalName_of_mem_relocations hlines
    · rintro ⟨n, problem⟩ hd name rfl
      exact Assembly.illegal_not_mem hassemble n name hd
  · intro line tokens hscan t ht name
    refine Directive.exporting_ne_illegal (fun name' hname => ?_) name
    obtain ⟨t', ht', hkind⟩ := Token.mem_names.1 hname
    obtain rfl := List.mem_singleton.1 ht'
    exact Token.legalName_of_cut (Token.cut_of_scan hscan) name' (Token.mem_names.2 ⟨t', ht, hkind⟩)

/-- A label that starts with a digit is refused; a constant, an exported name and a name that is
waited for are left. -/
theorem digit_label_refused :
    ∃ a, assemble "2x: _k = 4\n.globl ext1\nj far + _k" {} = .ok a ∧
      a.problemsAt 1 = [.illegalLabel "2x"] ∧
      a.module.symbols.symbols.map (·.name) = ["_k", "ext1"] ∧
      a.module.relocations.map (·.symbol) = ["far"] ∧
      LegalName "_k" ∧ LegalName "ext1" ∧ LegalName "far" ∧
      Directive.exporting [⟨.name "ext1", "ext1"⟩] ≠ .error (.illegalSymbol "ext1") := by
  obtain ⟨⟨a, ha, hsymbols, hrelocations, -⟩, hexporting⟩ :=
    names_assemble "2x: _k = 4\n.globl ext1\nj far + _k" {}
  have hgiven : (assemble "2x: _k = 4\n.globl ext1\nj far + _k" {}).toOption.map (fun a =>
      (a.problemsAt 1, a.module.symbols.symbols.map (·.name),
        a.module.relocations.map (·.symbol))) =
      some ([.illegalLabel "2x"], ["_k", "ext1"], ["far"]) := by decide +kernel
  rw [ha] at hgiven
  obtain ⟨hproblems, hgiven⟩ := Prod.mk.inj (Option.some.inj hgiven)
  obtain ⟨hnames, hwaited⟩ := Prod.mk.inj hgiven
  have hlegal : ∀ name ∈ ["_k", "ext1"], LegalName name := by
    rw [← hnames]
    rintro name hname
    obtain ⟨s, hs, rfl⟩ := List.mem_map.1 hname
    exact hsymbols s hs
  have hfar : ∀ name ∈ ["far"], LegalName name := by
    rw [← hwaited]
    rintro name hname
    obtain ⟨r, hr, rfl⟩ := List.mem_map.1 hname
    exact hrelocations r hr
  exact ⟨a, ha, hproblems, hnames, hwaited, hlegal _ (by simp), hlegal _ (by simp),
    hfar _ (by simp), hexporting "ext1".toList _ (by decide +kernel) _ (List.mem_singleton_self _) _⟩

end Mips
