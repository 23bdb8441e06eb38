import Mips.Proofs.Outcome
import Mips.Proofs.Target
import Mips.Proofs.Value

/-!
# Labels stay labels

The section of a name is that of the line which was the last to define it: the active section for a
label, none for a constant. A name can be defined again with the address it has, so a label keeps its
section only if no constant of its name comes behind it (`labels_assemble`). Then every branch or jump
with the label in its operand is encoded as a transfer to an address.

    x = 0x400000
    x:  b x             x is in text, and the branch goes back to x

    x:  b x
    x = 0x400000        x is a number, and the branch has 0x400000 for its offset
-/

namespace Mips

/-! ### Sections in the symbol table -/

namespace SymbolTable

/-- The section of the label `name`. -/
def home? (t : SymbolTable) (name : String) : Option Section := (t.get? name).bind (·.home)

variable (t : SymbolTable) {name other : String}

theorem home?_alter_of_ne (f : Symbol → Symbol) (ne : other ≠ name) :
    (t.alter name f).home? other = t.home? other := by
  rw [home?, get?_alter_of_ne t f ne, home?]

theorem home?_bind_self (name : String) (a : Word) (home : Option Section) :
    (t.bind name a home).home? name = home := by
  rw [home?, bind, get?_alter_self]
  rfl

/-- An export says nothing about the section. -/
theorem home?_markGlobal (name other : String) :
    (t.markGlobal name).home? other = t.home? other := by
  by_cases h : other = name
  · subst h
    rw [home?, markGlobal, get?_alter_self, home?]
    cases t.get? other <;> rfl
  · exact home?_alter_of_ne t _ h

theorem home?_tryDefine_of_ne (a : Word) (home : Option Section) (ne : other ≠ name) :
    (t.tryDefine name a home).home? other = t.home? other := by
  unfold tryDefine
  cases h : t.define name a home with
  | ok u =>
    obtain ⟨rfl, -⟩ := define_eq_ok h
    exact home?_alter_of_ne t _ ne
  | error cause => rfl

theorem home?_tryDefine_of_ok {u : SymbolTable} {a : Word} {home : Option Section}
    (h : t.define name a home = .ok u) : (t.tryDefine name a home).home? name = home := by
  obtain ⟨rfl, -⟩ := define_eq_ok h
  rw [tryDefine, h]
  exact home?_bind_self t name a home

end SymbolTable

/-! ### The lines that define a name -/

namespace Line

/-- The line is the definition of the constant `name`. -/
def BindsConstant (line : Line) (name : String) : Prop :=
  ∃ value, line.statement = some (.constant name value)

/-- The line has the label `name` or is the definition of the constant `name`. -/
def Defines (line : Line) (name : String) : Prop := line.label = some name ∨ line.BindsConstant name

end Line

namespace Listing

variable (settings : Settings) {name : String}

theorem home?_labelled_of_ne (names : SymbolTable) (place : Section) (address : Word)
    {label : Option String} (h : label ≠ some name) :
    (labelled names place address label).home? name = names.home? name := by
  cases label with
  | none => rfl
  | some other =>
    refine SymbolTable.home?_tryDefine_of_ne names address _ fun heq => h ?_
    rw [heq]

theorem home?_namesAfter (names : SymbolTable) (address : Word) (plan : Plan)
    {statement : Option Statement} (h : ∀ value, statement ≠ some (.constant name value)) :
    (namesAfter names address plan statement).home? name = names.home? name := by
  unfold namesAfter
  split
  · next other value =>
    split
    · refine SymbolTable.home?_tryDefine_of_ne names _ _ fun heq => h value ?_
      rw [heq]
    · rfl
  · split
    · exact names.home?_markGlobal _ name
    · rfl

/-- A line that does not define a name leaves its section as it is. -/
theorem home?_add (l : Listing) {line : Line} (h : ¬ line.Defines name) :
    (l.add settings line).names.home? name = l.names.home? name := by
  have hlabel : line.label ≠ some name := fun heq => h (Or.inl heq)
  have hconstant : ∀ value, line.statement ≠ some (.constant name value) :=
    fun value heq => h (Or.inr ⟨value, heq⟩)
  rw [add, home?_namesAfter _ _ _ hconstant, known, home?_labelled_of_ne _ _ _ hlabel]

theorem home?_foldl : ∀ (lines : List Line) (l : Listing), (∀ line ∈ lines, ¬ line.Defines name) →
    (lines.foldl (add settings) l).names.home? name = l.names.home? name
  | [], _, _ => rfl
  | line :: lines, l, h => by
    rw [List.foldl_cons, home?_foldl lines _ fun x hx => h x (List.mem_cons_of_mem line hx)]
    exact home?_add settings l (h line List.mem_cons_self)

/-- A label that is accepted has the section of its line until another line defines the name. -/
theorem home?_of_label {before : List Line} {line : Line} {after : List Line} {u : SymbolTable}
    (hlabel : line.label = some name)
    (hdefine : (ofLines settings before).names.define name
      (Row.nextAddress settings (ofLines settings before).rows)
      (some (Row.active (ofLines settings before).rows)) = .ok u)
    (hconstant : ¬ line.BindsConstant name) (hafter : ∀ x ∈ after, ¬ x.Defines name) :
    (ofLines settings (before ++ line :: after)).names.home? name =
      some (Row.active (ofLines settings before).rows) := by
  rw [ofLines_append, List.foldl_cons, home?_foldl settings after _ hafter, add,
    home?_namesAfter _ _ _ fun value heq => hconstant ⟨value, heq⟩, known, hlabel]
  exact SymbolTable.home?_tryDefine_of_ok _ hdefine

end Listing

/-! ### Sources without errors -/

namespace Assembly

theorem severity_of_mem_problemsAt {a : Assembly} (h : a.hasErrors = false) {n : Nat}
    {problem : Problem} (hmem : problem ∈ a.problemsAt n) : problem.severity ≠ .error := by
  intro herror
  have hdiagnostic := mem_problemsAt.1 hmem
  have hnone := List.any_eq_false.1 h _ hdiagnostic
  simp [Diagnostic.isError, herror] at hnone

end Assembly

section Clean

variable {source : String} {settings : Settings} {a : Assembly}

/-- Where there are no errors, neither pass has one to report about a line. -/
theorem severity_placedAfter (hassemble : assemble source settings = .ok a)
    (hclean : a.hasErrors = false) {before : List Line} {line : Line} {after : List Line}
    (hsplit : (Source.read source).lines = before ++ line :: after) :
    (∀ problem ∈ (Layout.placedAfter settings before line).problems, problem.severity ≠ .error) ∧
      ∀ problem ∈ ((Layout.placedAfter settings before line).row.realized settings.isa
        a.module.symbols).problems, problem.severity ≠ .error := by
  obtain ⟨text, undefined, -, -, hproblems⟩ := problemsAt_assemble hassemble hsplit
  refine ⟨fun problem hmem => ?_, fun problem hmem => ?_⟩
  · refine Assembly.severity_of_mem_problemsAt hclean (n := line.number) ?_
    rw [hproblems]
    simp [hmem]
  · refine Assembly.severity_of_mem_problemsAt hclean (n := line.number) ?_
    rw [hproblems]
    simp [hmem]

/-- Without errors every label is accepted. -/
theorem exists_define_label (hassemble : assemble source settings = .ok a)
    (hclean : a.hasErrors = false) {before : List Line} {line : Line} {after : List Line}
    (hsplit : (Source.read source).lines = before ++ line :: after) {name : String}
    (hlabel : line.label = some name) :
    ∃ u, (Listing.ofLines settings before).names.define name
      (Row.nextAddress settings (Listing.ofLines settings before).rows)
      (some (Row.active (Listing.ofLines settings before).rows)) = .ok u := by
  have hnone := (severity_placedAfter hassemble hclean hsplit).1
  cases hdefine : (Listing.ofLines settings before).names.define name
      (Row.nextAddress settings (Listing.ofLines settings before).rows)
      (some (Row.active (Listing.ofLines settings before).rows)) with
  | ok u => exact ⟨u, rfl⟩
  | error cause =>
    refine absurd rfl (hnone (.duplicate .label name cause) ?_)
    have hrefused : (Layout.imageOf settings before).symbols.define name
        (Layout.imageOf settings before).address
        (some (Layout.imageOf settings before).active) = .error cause := by
      rw [Layout.imageOf_eq, Listing.address_image]
      exact hdefine
    rw [Layout.placedAfter, Layout.placeLine_eq, hlabel]
    simp [Layout.bindLabel, hrefused]

/-- Without errors every instruction is encoded. -/
theorem exists_encoding (hassemble : assemble source settings = .ok a)
    (hclean : a.hasErrors = false) {row : Row}
    (hrow : row ∈ (Listing.ofLines settings (Source.read source).lines).rows) {m : Mnemonic}
    {args : List Token} (hplan : row.plan = .instruction m args) :
    ∃ e, Encoding.ofStatement settings.isa a.module.symbols row.address m.name args = .ok e := by
  obtain ⟨before, after, hsplit⟩ := List.append_of_mem hrow
  obtain ⟨hlines, hplaced⟩ := Layout.row_of_split settings hsplit
  have hnone := (severity_placedAfter hassemble hclean hlines).2
  rw [hplaced] at hnone
  cases he : Encoding.ofStatement settings.isa a.module.symbols row.address m.name args with
  | ok e => exact ⟨e, rfl⟩
  | error problems =>
    obtain ⟨problem, rfl, hblames⟩ :=
      Encoding.ofStatement_error (Listing.selected_of_mem hrow m args hplan) he
    have hproblem : problem ∈ (row.realized settings.isa a.module.symbols).problems := by
      simp [Row.realized, hplan, he]
    refine absurd (Problem.severity_of_refusesStatement ?_) (hnone problem hproblem)
    exact Problem.refusesStatement_of_blamesOperand hblames

end Clean

/-! ### Branches and jumps -/

/-- An expression with a label in it refers to an address. -/
theorem Expr.hasLabel_of_mem {symbols : SymbolTable} {name : String}
    (hlabel : symbols.isLabel name = true) {e : Expr} (h : name ∈ e.names) :
    e.hasLabel symbols = true :=
  e.hasLabel_iff.2 (Or.inr ⟨name, e.mem_names_iff.1 h, hlabel⟩)

/-- The row has a branch or a jump at `origin`, to be told by `kind`, with `name` in its operand. -/
def Row.Mentions (row : Row) (kind : OperandKind) (origin : Word) (name : String) : Prop :=
  ∃ m args arg, row.plan = .instruction m args ∧
    m.expression? (Line.splitArgs args) = some (kind, arg) ∧ name ∈ Token.names arg ∧
    origin = row.address + BitVec.ofNat 32 (4 * m.fieldIndex)

/-- The row is encoded as a transfer from `origin` to the address that its operand has as value, or
waits for a name without address there. -/
def Row.Addresses (isa : Isa) (module : Module) (row : Row) (kind : OperandKind) (origin : Word) :
    Prop :=
  (∃ symbol, row.relocation? isa module.symbols = some ⟨origin, symbol⟩) ∨
    ∃ goal i, row.Transfers isa module.symbols kind origin goal ∧
      module.HasAt row.place origin i ∧ [kind.read i] = kind.parts (kind.route origin goal)

/-- A branch or jump with a label in its operand is encoded as a transfer to an address. -/
theorem Row.addresses_of_mentions {source : String} {settings : Settings} {a : Assembly}
    (hassemble : assemble source settings = .ok a) (hclean : a.hasErrors = false) {row : Row}
    (hrow : row ∈ (Listing.ofLines settings (Source.read source).lines).rows) {name : String}
    (hlabel : a.module.symbols.isLabel name = true) {kind : OperandKind}
    (hkind : kind = .offset ∨ kind = .target) {origin : Word}
    (h : row.Mentions kind origin name) : row.Addresses settings.isa a.module kind origin := by
  obtain ⟨m, args, arg, hplan, hx, hname, horigin⟩ := h
  obtain ⟨e, he⟩ := exists_encoding hassemble hclean hrow hplan
  have hselected := Listing.selected_of_mem hrow
  have hselect := hselected m args hplan
  obtain ⟨expr, v, hv, hsymbol, -⟩ := Encoding.ofStatement_expression rfl hselect he hx
  obtain ⟨hparse, heval⟩ := Encoding.value_eq_ok hv
  have hrefers : expr.hasLabel a.module.symbols = true :=
    Expr.hasLabel_of_mem hlabel (Expr.names_parse hparse ▸ hname)
  cases v with
  | none =>
    have hvalue := Expr.unresolved?_of_eval a.module.symbols row.address heval
    obtain ⟨symbol, hawaited⟩ := Option.isNone_eq_false_iff.1 hvalue |> Option.isSome_iff_exists.1
    have hindex : e.fieldIndex = m.fieldIndex := by
      obtain ⟨b, -, rfl⟩ := Encoding.ofStatement_eq_ok hselect he
      rfl
    refine Or.inl ⟨symbol, ?_⟩
    rw [← Row.relocation_realized hselected, horigin]
    simp [Row.realized, hplan, he, hsymbol, hawaited, hindex]
  | some goal =>
    have htransfers : row.Transfers settings.isa a.module.symbols kind origin goal :=
      ⟨m, args, arg, e, expr, hplan, hx, he, horigin, hparse, hrefers, heval⟩
    have hmodule := module_assemble hassemble
    rw [hmodule] at htransfers ⊢
    obtain ⟨i, hat, hread, -⟩ := Listing.field_of_transfers hrow hkind htransfers
    exact Or.inr ⟨goal, i, htransfers, hat, hread⟩

/-! ### The labels of a source -/

/-- Without errors a label has the section of the last line with it, if no constant of its name comes
behind that label; and branches and jumps with such a label in their operand go to an address. -/
theorem labels_assemble (source : String) (settings : Settings) :
    let l := Listing.ofLines settings (Source.read source).lines
    ∃ a, assemble source settings = .ok a ∧
      l.rows.map (·.line) = (Source.read source).lines ∧
      (a.hasErrors = false → ∀ before row after, l.rows = before ++ row :: after →
        ∀ name, row.line.label = some name →
        (∀ x ∈ after, x.line.label ≠ some name) →
        (∀ x ∈ row :: after, ¬ x.line.BindsConstant name) →
        row.place = Row.active before ∧ a.module.symbols.home? name = some row.place ∧
        ∀ x ∈ l.rows, ∀ kind origin, kind = .offset ∨ kind = .target →
          x.Mentions kind origin name → x.Addresses settings.isa a.module kind origin) := by
  intro l
  obtain ⟨a, hassemble⟩ := exists_assembly source settings
  refine ⟨a, hassemble, Listing.map_line_rows settings _, ?_⟩
  intro hclean before row after hsplit name hlabel hlast hconstant
  obtain ⟨hlines, -⟩ := Layout.row_of_split settings hsplit
  obtain ⟨u, hdefine⟩ := exists_define_label hassemble hclean hlines hlabel
  have hplace := (Listing.stands_of_split hsplit).place
  have hbefore : (Listing.ofLines settings (before.map (·.line))).rows = before := by
    obtain ⟨l', rfl, -, ⟨lines', rfl⟩, -⟩ := Listing.rows_split settings _ hsplit
    rw [Listing.map_line_rows]
  have hafter : ∀ x ∈ after.map (·.line), ¬ x.Defines name := by
    intro x hx hdefines
    obtain ⟨row', hrow', rfl⟩ := List.mem_map.1 hx
    rcases hdefines with hother | hbinds
    · exact hlast row' hrow' hother
    · exact hconstant row' (List.mem_cons_of_mem row hrow') hbinds
  have hhome : a.module.symbols.home? name = some row.place := by
    have hlabelled := Listing.home?_of_label settings hlabel hdefine
      (hconstant row List.mem_cons_self) hafter
    rw [← hlines, hbefore, ← hplace] at hlabelled
    rw [module_assemble hassemble]
    exact hlabelled
  have hisLabel : a.module.symbols.isLabel name = true := by
    change (a.module.symbols.home? name).isSome = true
    rw [hhome]
    rfl
  refine ⟨hplace, hhome, fun x hx kind origin hkind hmentions => ?_⟩
  exact Row.addresses_of_mentions hassemble hclean hx hisLabel hkind hmentions

/-- A label that comes behind a constant of the same value is one, and a branch to it knows. -/
theorem label_behind_constant :
    ∃ (a : Assembly) (row : Row), assemble "x = 0x400000\nx: b x" {} = .ok a ∧
      a.hasErrors = false ∧ row.line.label = some "x" ∧ row.place = .text ∧
      a.module.symbols.home? "x" = some .text ∧ row.Mentions .offset 0x400000 "x" ∧
      row.Addresses .mips32 a.module .offset 0x400000 := by
  let constant : Row := ⟨⟨1, none, some (.constant "x" [⟨.number 0x400000, "0x400000"⟩])⟩, .text,
    0x400000, .nothing⟩
  let branch : Row := ⟨⟨2, some "x", some (.instruction "b" [⟨.name "x", "x"⟩])⟩, .text, 0x400000,
    .instruction (.pseudo "b" .b [.offset]) [⟨.name "x", "x"⟩]⟩
  have hrows : (Listing.ofLines {} (Source.read "x = 0x400000\nx: b x").lines).rows =
      [constant] ++ branch :: [] := by decide +kernel
  obtain ⟨a, ha, -, hlabels⟩ := labels_assemble "x = 0x400000\nx: b x" {}
  have herrors : (assemble "x = 0x400000\nx: b x" {}).toOption.map (·.hasErrors) =
      some false := by decide +kernel
  rw [ha] at herrors
  have hclean : a.hasErrors = false := Option.some.inj herrors
  obtain ⟨-, hhome, hrefers⟩ := hlabels hclean [constant] branch [] hrows "x" rfl (by simp)
    (by simp [branch, Line.BindsConstant])
  have hmentions : branch.Mentions .offset 0x400000 "x" :=
    ⟨_, _, [⟨.name "x", "x"⟩], rfl, by decide, by decide, by decide⟩
  exact ⟨a, branch, ha, hclean, rfl, rfl, hhome, hmentions,
    hrefers branch (by rw [hrows]; simp) .offset 0x400000 (Or.inl rfl) hmentions⟩

/-- A line has the label `name`, and without any error the name is not in the section of the line. -/
def LosesLabel (source : String) (settings : Settings) (name : String) : Prop :=
  ∃ a, assemble source settings = .ok a ∧ a.hasErrors = false ∧
    ∃ row ∈ (Listing.ofLines settings (Source.read source).lines).rows,
      row.line.label = some name ∧ a.module.symbols.home? name ≠ some row.place

/-- A label that is followed by a constant of the same name and value, or by a label of the same name
and address in the other section. The branch takes the constant as its offset, and the field is zero
instead of 0xffff. -/
theorem labels_lost :
    LosesLabel "x: b x\nx = 0x400000" {} "x" ∧
      (∃ a, assemble "x: b x\nx = 0x400000" {} = .ok a ∧ a.module.text = #[0x10, 0, 0, 0]) ∧
      LosesLabel "nop\nx:\n.data\nx:" { dataBase := 0x400004 } "x" := by
  obtain ⟨a, ha⟩ := exists_assembly "x: b x\nx = 0x400000" {}
  obtain ⟨b, hb⟩ := exists_assembly "nop\nx:\n.data\nx:" { dataBase := 0x400004 }
  have hafacts : (assemble "x: b x\nx = 0x400000" {}).toOption.map (fun a =>
      (a.hasErrors, a.module.symbols.home? "x", a.module.text)) =
        some (false, none, #[0x10, 0, 0, 0]) := by decide +kernel
  have hbfacts : (assemble "nop\nx:\n.data\nx:" { dataBase := 0x400004 }).toOption.map (fun b =>
      (b.hasErrors, b.module.symbols.home? "x")) = some (false, some .data) := by decide +kernel
  rw [ha] at hafacts
  rw [hb] at hbfacts
  simp only [Except.toOption, Option.map_some, Option.some.injEq, Prod.mk.injEq] at hafacts hbfacts
  obtain ⟨hclean, hhome, htext⟩ := hafacts
  obtain ⟨hclean', hhome'⟩ := hbfacts
  refine ⟨⟨a, ha, hclean, ?_⟩, ⟨a, ha, htext⟩, ⟨b, hb, hclean', ?_⟩⟩
  · exact ⟨⟨⟨1, some "x", some (.instruction "b" [⟨.name "x", "x"⟩])⟩, .text, 0x400000,
      .instruction (.pseudo "b" .b [.offset]) [⟨.name "x", "x"⟩]⟩, by decide +kernel, rfl,
      by simp [hhome]⟩
  · exact ⟨⟨⟨2, some "x", none⟩, .text, 0x400004, .nothing⟩, by decide +kernel, rfl,
      by simp [hhome']⟩

end Mips
