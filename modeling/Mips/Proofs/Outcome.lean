import Mips.Proofs.Relocation
import Mips.Proofs.Report

/-!
# What becomes of an instruction line

An instruction is checked three times: its mnemonic and its room in the first pass, its operands in
the second. The first check that fails gives the only error of the line, and a line without an error
is encoded in full. A number can be cut only by the last operand, so no warning stands before an
error and there is never a second one; a name without address leaves a zero, which is not cut.

    select ──▶ room ──▶ operands ──▶ words, at most one warning
      │         │          │
      ▼         ▼          ▼
      one error, no bytes  one error, zeros
-/

namespace Mips

/-! ### Problems -/

namespace Problem

/-- Whether a problem is about the name of a label or about a name that nothing declares. -/
def concernsName (p : Problem) : Bool :=
  match p.kind with
  | .illegalName | .redefinition | .unknownSymbol => true
  | _ => false

/-- Whether a problem is an error that is not about a name. -/
def refusesStatement (p : Problem) : Bool := p.severity = .error && !p.concernsName

theorem refusesStatement_of_refusesMnemonic {problem : Problem}
    (h : problem.refusesMnemonic = true) : problem.refusesStatement = true := by
  cases problem with
  | unknownInstruction | unsupported | operandCount => rfl
  | _ => simp [refusesMnemonic] at h

theorem refusesStatement_of_blamesOperand {problem : Problem}
    (h : problem.blamesOperand = true) : problem.refusesStatement = true := by
  cases problem with
  | notRegister | notMemory => rfl
  | expression cause => cases cause <;> rfl
  | _ => simp [blamesOperand] at h

theorem severity_of_refusesStatement {problem : Problem} (h : problem.refusesStatement = true) :
    problem.severity = .error := by
  simpa using (Bool.and_eq_true_iff.1 h).1

theorem concernsName_of_refusesStatement {problem : Problem}
    (h : problem.refusesStatement = true) : problem.concernsName = false := by
  simpa using (Bool.and_eq_true_iff.1 h).2

end Problem

/-- What is reported under a line number, leaving labels and names without declaration aside. -/
def Assembly.verdict (a : Assembly) (n : Nat) : List Problem :=
  (a.problemsAt n).filter (!·.concernsName)

theorem Assembly.filter_concernsName {problems : List Problem}
    (h : ∀ p ∈ problems, p.concernsName = true) : problems.filter (!·.concernsName) = [] := by
  refine List.filter_eq_nil_iff.2 fun p hp => ?_
  simp [h p hp]

/-! ### Warnings -/

theorem OperandKind.complaint_zero (kind : OperandKind) : kind.complaint 0 = [] := by
  cases kind <;> decide

theorem OperandKind.complaint_cases (kind : OperandKind) (n : Word) :
    kind.complaint n = [] ∨ ∃ field, kind.complaint n = [.cut field n] := by
  unfold complaint
  split
  · next field _ =>
    by_cases hholds : field.holds n = true
    · exact Or.inl (if_pos hholds)
    · exact Or.inr ⟨field, if_neg hholds⟩
  · exact Or.inl rfl

namespace Encoding

variable {isa : Isa} {names : SymbolTable} {address : Word} {m : Mnemonic} {tokens : List Token}
  {e : Encoding}

/-- At most one number is cut, and none while a name is waited for. -/
theorem warnings_ofStatement
    (hselect : Mnemonic.select isa m.name (Line.splitArgs tokens).length = .ok m)
    (he : ofStatement isa names address m.name tokens = .ok e) :
    (e.warnings = [] ∨ ∃ field n, e.warnings = [.cut field n]) ∧
      (e.symbol.isSome = true → e.warnings = []) := by
  cases hx : m.expression? (Line.splitArgs tokens) with
  | none =>
    obtain ⟨b, hb, rfl⟩ := ofStatement_eq_ok hselect he
    have hnone : b.warnings = [] := (bindAll_no_expression hx hb).2
    exact ⟨Or.inl hnone, fun _ => hnone⟩
  | some x =>
    obtain ⟨kind, arg⟩ := x
    obtain ⟨expr, v, -, hsymbol, -, hwarnings⟩ := ofStatement_expression rfl hselect he hx
    rw [hwarnings]
    refine ⟨?_, fun hawaits => ?_⟩
    · rcases kind.complaint_cases _ with hnone | ⟨field, hcut⟩
      · exact Or.inl hnone
      · exact Or.inr ⟨field, _, hcut⟩
    · have hunknown : v = none := by
        cases v with
        | none => rfl
        | some x => simp [hsymbol] at hawaits
      rw [hunknown]
      exact kind.complaint_zero

end Encoding

/-! ### The first pass over an instruction -/

namespace Layout

theorem concernsName_bindLabel (image : Image) (label : Option String) :
    ∀ problem ∈ (bindLabel image label).2, problem.concernsName = true := by
  intro problem hmem
  obtain ⟨name, cause, rfl⟩ := duplicate_of_mem_bindLabel hmem
  rfl

/-- An instruction gets a plan or an error. -/
theorem placeInstruction_cases (isa : Isa) (image : Image) (name : String) (args : List Token) :
    (∃ m, Mnemonic.select isa name (Line.splitArgs args).length = .ok m ∧
      (placeInstruction isa image name args).plan = .instruction m args ∧
      (placeInstruction isa image name args).problems = []) ∨
    ∃ problem, problem.refusesStatement = true ∧
      (placeInstruction isa image name args).plan = .nothing ∧
      (placeInstruction isa image name args).problems = [problem] := by
  unfold placeInstruction
  cases hselect : Mnemonic.select isa name (Line.splitArgs args).length with
  | error problem =>
    exact Or.inr ⟨problem, Problem.refusesStatement_of_refusesMnemonic
      (Mnemonic.refusesMnemonic_of_select hselect), rfl, rfl⟩
  | ok m =>
    dsimp only
    split
    · exact Or.inl ⟨m, rfl, rfl, rfl⟩
    · exact Or.inr ⟨.overflow image.active, rfl, rfl, rfl⟩

/-- What the first pass makes of an instruction line behind the lines `before`. -/
theorem placedAfter_instruction (settings : Settings) (before : List Line) {line : Line}
    {name : String} {args : List Token} (h : line.statement = some (.instruction name args)) :
    ∃ image, (placedAfter settings before line).plan =
        (placeInstruction settings.isa image name args).plan ∧
      (placedAfter settings before line).problems =
        (bindLabel (imageOf settings before) line.label).2 ++
          (placeInstruction settings.isa image name args).problems := by
  refine ⟨(bindLabel (imageOf settings before) line.label).1, ?_⟩
  rw [placedAfter, placeLine_eq, h]
  exact ⟨rfl, rfl⟩

end Layout

/-! ### Outcomes -/

namespace Row

variable (isa : Isa) (names : SymbolTable)

/-- The instruction `name` was refused with one error. It has no bytes if the first pass refused it,
and zeros if the second one did. -/
structure Refused (name : String) (args : List Token) (row : Row) (reported : List Problem) :
    Prop where
  error : ∃ problem, reported = [problem] ∧ problem.severity = .error ∧
    (row.plan = .nothing ∧ row.bytes isa names = [] ∨
      ∃ m, row.plan = .instruction m args ∧
        Encoding.ofStatement isa names row.address name args = .error [problem] ∧
        row.bytes isa names = List.replicate m.size 0)
  relocation : row.relocation? isa names = none

/-- The instruction `name` was encoded in full, with a warning if a number was cut. -/
structure Encoded (name : String) (args : List Token) (row : Row) (reported : List Problem) :
    Prop where
  words : ∃ m e, row.plan = .instruction m args ∧ m.name = name ∧
    Encoding.ofStatement isa names row.address name args = .ok e ∧
    row.bytes isa names = e.words.flatMap (·.bytes)
  warning : reported = [] ∨ ∃ field n, reported = [.cut field n]
  relocated : (row.relocation? isa names).isSome = true → reported = []

variable {isa names}

/-- An instruction that the first pass has refused stays so. -/
theorem refused_of_nothing {row : Row} {problem : Problem} (hplan : row.plan = .nothing)
    (hrefuses : problem.refusesStatement = true) (name : String) (args : List Token) :
    row.Refused isa names name args
      ([problem].filter (!·.concernsName) ++ (row.realized isa names).problems) := by
  have hreported : [problem].filter (!·.concernsName) = [problem] := by
    simp [Problem.concernsName_of_refusesStatement hrefuses]
  have hrealized : (row.realized isa names).problems = [] := by simp only [realized, hplan]
  refine ⟨⟨problem, ?_, Problem.severity_of_refusesStatement hrefuses, Or.inl ⟨hplan, ?_⟩⟩, ?_⟩
  · rw [hreported, hrealized]
    rfl
  · simp only [bytes, Plan.bytes, hplan]
  · simp only [relocation?, hplan]

/-- What the second pass makes of an instruction that the first one has accepted. -/
theorem outcome_of_instruction {row : Row} {m : Mnemonic} {args : List Token}
    (hselected : row.Selected isa) (hplan : row.plan = .instruction m args) :
    row.Refused isa names m.name args (row.realized isa names).problems ∨
      row.Encoded isa names m.name args (row.realized isa names).problems := by
  have hselect := hselected m args hplan
  cases he : Encoding.ofStatement isa names row.address m.name args with
  | error problems =>
    obtain ⟨problem, rfl, hblames⟩ := Encoding.ofStatement_error hselect he
    have hproblems : (row.realized isa names).problems = [problem] := by
      simp only [realized, hplan, he]
    refine Or.inl ⟨⟨problem, hproblems, ?_, Or.inr ⟨m, hplan, he, ?_⟩⟩, ?_⟩
    · exact Problem.severity_of_refusesStatement
        (Problem.refusesStatement_of_blamesOperand hblames)
    · simp only [bytes, Plan.bytes, hplan, he]
    · simp only [relocation?, hplan, he]
  | ok e =>
    have hproblems : (row.realized isa names).problems = e.warnings := by
      simp only [realized, hplan, he]
    obtain ⟨hwarnings, hawaits⟩ := Encoding.warnings_ofStatement hselect he
    rw [hproblems]
    refine Or.inr ⟨⟨m, e, hplan, rfl, he, ?_⟩, hwarnings, fun hsome => hawaits ?_⟩
    · simp only [bytes, Plan.bytes, hplan, he]
    · rw [Encoding.symbol_ofStatement hselect he]
      simpa only [relocation?, hplan, he, Option.isSome_map] using hsome

theorem concernsName_realized {row : Row} (hselected : row.Selected isa) :
    ∀ problem ∈ (row.realized isa names).problems, problem.concernsName = false := by
  intro problem hmem
  rcases problem_realized hselected names problem hmem with hoperand | ⟨field, n, rfl⟩
  · exact Problem.concernsName_of_refusesStatement
      (Problem.refusesStatement_of_blamesOperand hoperand)
  · rfl

end Row

namespace Assembly

/-- The verdict on a line is what the two passes have to say about its statement. -/
theorem verdict_assemble {source : String} {settings : Settings} {a : Assembly}
    (h : assemble source settings = .ok a) {before : List Line} {line : Line} {after : List Line}
    (hsplit : (Source.read source).lines = before ++ line :: after) {s : Statement}
    (hstatement : line.statement = some s)
    (hselected : (Layout.placedAfter settings before line).row.Selected settings.isa) :
    a.verdict line.number =
      (Layout.placedAfter settings before line).problems.filter (!·.concernsName) ++
      ((Layout.placedAfter settings before line).row.realized settings.isa
        a.module.symbols).problems := by
  obtain ⟨text, undefined, hread, hundefined, hproblems⟩ := problemsAt_assemble h hsplit
  have hreading : (Line.read line.number text).2.filter (!·.concernsName) = [] := by
    refine filter_concernsName fun p hp => ?_
    obtain ⟨name, rfl⟩ := Line.illegalLabel_of_mem_read hread hstatement hp
    rfl
  have hlast : undefined.filter (!·.concernsName) = [] := by
    refine filter_concernsName fun p hp => ?_
    obtain ⟨name, rfl⟩ := hundefined p hp
    rfl
  have hkept : ((Layout.placedAfter settings before line).row.realized settings.isa
      a.module.symbols).problems.filter (!·.concernsName) =
      ((Layout.placedAfter settings before line).row.realized settings.isa
        a.module.symbols).problems := by
    refine List.filter_eq_self.2 fun p hp => ?_
    simp [Row.concernsName_realized hselected p hp]
  rw [verdict, hproblems]
  simp only [List.filter_append, hreading, hlast, hkept, List.nil_append, List.append_nil]

/-- The verdict on an instruction that got room is that of the second pass. -/
theorem verdict_of_plan {source : String} {settings : Settings} {a : Assembly}
    (h : assemble source settings = .ok a) {row : Row}
    (hrow : row ∈ (Listing.ofLines settings (Source.read source).lines).rows) {m : Mnemonic}
    {args : List Token} (hplan : row.plan = .instruction m args) :
    a.verdict row.line.number = (row.realized settings.isa
      (Listing.ofLines settings (Source.read source).lines).names).problems := by
  have hnames : a.module.symbols = (Listing.ofLines settings (Source.read source).lines).names := by
    rw [module_assemble h]
    rfl
  have hstatement := Listing.statement_of_plan hrow hplan
  have hselected := Listing.selected_of_mem hrow
  obtain ⟨before, after, hsplit⟩ := List.append_of_mem hrow
  obtain ⟨hlines, hplaced⟩ := Layout.row_of_split settings hsplit
  obtain ⟨image, hplan', hproblems⟩ :=
    Layout.placedAfter_instruction settings (before.map (·.line)) hstatement
  have hlabel := filter_concernsName (Layout.concernsName_bindLabel
    (Layout.imageOf settings (before.map (·.line))) row.line.label)
  rw [verdict_assemble h hlines hstatement (hplaced.symm ▸ hselected), hplaced, hproblems,
    List.filter_append, hlabel, List.nil_append, hnames]
  rw [← hplaced] at hplan
  rcases Layout.placeInstruction_cases settings.isa image m.name args with
    ⟨m', -, -, hnone⟩ | ⟨problem, -, hnothing, -⟩
  · rw [hnone, List.filter_nil, List.nil_append]
  · exact absurd (hplan.symm.trans (hplan'.trans hnothing)) (by simp)

end Assembly

theorem Listing.relocations_module (settings : Settings) (lines : List Line) :
    ((ofLines settings lines).module settings).relocations =
      (ofLines settings lines).rows.filterMap
        (·.relocation? settings.isa (ofLines settings lines).names) :=
  List.filterMap_congr fun _ hrow => Row.relocation_realized (selected_of_mem hrow)

/-- Every instruction line is refused with exactly one error and then has no bytes or only zeros, or
it is encoded in full with at most one warning; a line with a relocation has none. -/
theorem outcome_assemble (source : String) (settings : Settings) :
    let l := Listing.ofLines settings (Source.read source).lines
    ∃ a, assemble source settings = .ok a ∧
      l.rows.map (·.line) = (Source.read source).lines ∧
      (∀ place, (a.module.bytes place).toList =
        Row.bytesIn settings.isa a.module.symbols place l.rows) ∧
      a.module.relocations = l.rows.filterMap (·.relocation? settings.isa a.module.symbols) ∧
      ∀ row ∈ l.rows, ∀ name args, row.line.statement = some (.instruction name args) →
        row.Refused settings.isa a.module.symbols name args (a.verdict row.line.number) ∨
          row.Encoded settings.isa a.module.symbols name args (a.verdict row.line.number) := by
  intro l
  obtain ⟨trace, hassemble⟩ := assemble_eq source settings rfl
  refine ⟨_, hassemble, Listing.map_line_rows settings _, fun place => Listing.bytes_module ..,
    Listing.relocations_module settings _, ?_⟩
  intro row hrow name args hstatement
  have hselected : row.Selected settings.isa := Listing.selected_of_mem hrow
  obtain ⟨before, after, hsplit⟩ := List.append_of_mem hrow
  obtain ⟨hlines, hplaced⟩ := Layout.row_of_split settings hsplit
  obtain ⟨image, hplan, hproblems⟩ :=
    Layout.placedAfter_instruction settings (before.map (·.line)) hstatement
  have hlabel := Assembly.filter_concernsName (Layout.concernsName_bindLabel
    (Layout.imageOf settings (before.map (·.line))) row.line.label)
  rw [Assembly.verdict_assemble hassemble hlines hstatement (hplaced.symm ▸ hselected), hplaced,
    hproblems, List.filter_append, hlabel, List.nil_append]
  have hrowplan : row.plan = (Layout.placeInstruction settings.isa image name args).plan := by
    rw [← hplan, ← hplaced]
    rfl
  rcases Layout.placeInstruction_cases settings.isa image name args with
    ⟨m, hselect, hinstruction, hnone⟩ | ⟨problem, hrefuses, hnothing, hone⟩
  · rw [hnone, List.filter_nil, List.nil_append, ← Mnemonic.name_of_select hselect]
    exact Row.outcome_of_instruction hselected (hrowplan.trans hinstruction)
  · rw [hone]
    exact Or.inl (Row.refused_of_nothing (hrowplan.trans hnothing) hrefuses name args)

/-- A shift amount of more than five bits is cut with one warning. -/
theorem wide_shift_encoded :
    ∃ (a : Assembly) (row : Row), assemble "sll $t0, $t1, 33" {} = .ok a ∧ row.line.number = 1 ∧
      row.Encoded .mips32 a.module.symbols "sll"
        [⟨.register "t0", "$t0"⟩, ⟨.comma, ","⟩, ⟨.register "t1", "$t1"⟩, ⟨.comma, ","⟩,
          ⟨.number 33, "33"⟩] (a.verdict 1) ∧
      a.verdict 1 = [.cut .shift 33] := by
  obtain ⟨a, ha, -, -, -, houtcome⟩ := outcome_assemble "sll $t0, $t1, 33" {}
  have hverdict : (assemble "sll $t0, $t1, 33" {}).toOption.map (·.verdict 1) =
      some [.cut .shift 33] := by decide +kernel
  rw [ha] at hverdict
  have hcut : a.verdict 1 = [.cut .shift 33] := Option.some.inj hverdict
  have hline := houtcome ⟨⟨1, none, some (.instruction "sll" [⟨.register "t0", "$t0"⟩,
      ⟨.comma, ","⟩, ⟨.register "t1", "$t1"⟩, ⟨.comma, ","⟩, ⟨.number 33, "33"⟩])⟩, .text, 0x400000,
    .instruction (.real "sll" (.register 0) [.rd, .rt, .shift]) [⟨.register "t0", "$t0"⟩,
      ⟨.comma, ","⟩, ⟨.register "t1", "$t1"⟩, ⟨.comma, ","⟩, ⟨.number 33, "33"⟩]⟩
    (by decide +kernel) "sll" _ rfl
  rcases hline with hrefused | hencoded
  · obtain ⟨problem, hreported, herror, -⟩ := hrefused.error
    rw [hcut] at hreported
    rw [← List.singleton_inj.1 hreported] at herror
    exact absurd herror (by decide)
  · exact ⟨a, _, ha, rfl, hencoded, hcut⟩

end Mips
