import Mips.Proofs.Bounds
import Mips.Proofs.Text

/-!
# Rejected lines are isolated

A line that is rejected leaves the image of the first pass as it was and has nothing to do in the
second (`Layout.Inert`), so the lines behind it are placed as if it were not there. All that it
leaves are its own diagnostics: without them, a source gives the same with the line emptied.

    before ++ line :: after
      │               │
      ▼               ▼
    image ─ inert ─▶ image        names, cursors and active section are those of `before`
-/

namespace Mips

namespace Layout

/-! ### What is rejected -/

/-- The first pass rejects a statement on `image`. -/
inductive Rejects (isa : Isa) (image : Image) : Statement → Prop where
  /-- The mnemonic is unknown, came with a later revision or takes another number of operands. -/
  | instruction {name : String} {args : List Token} {problem : Problem}
    (h : Mnemonic.select isa name (Line.splitArgs args).length = .error problem) :
    Rejects isa image (.instruction name args)
  /-- The directive is unknown, or an argument or their number is wrong. -/
  | directive {name : String} {args : List Token}
    (h : (Directive.read image.symbols image.address name args).1 = none) :
    Rejects isa image (.directive name args)
  /-- The instruction or directive would pass the last address. -/
  | overflow {s : Statement} {n : Nat} (hdemand : demand? isa image (some s) = some n)
    (hroom : image.current.hasRoom n = false) : Rejects isa image s
  | constantWithoutValue {name : String} : Rejects isa image (.constant name [])
  | constantExpression {name : String} {value : List Token} {cause : ExprError}
    (h : Expr.evalTokens image.symbols image.address value = .error cause) :
    Rejects isa image (.constant name value)
  | constantNotKnown {name : String} {value : List Token}
    (h : Expr.evalTokens image.symbols image.address value = .ok none) :
    Rejects isa image (.constant name value)
  | constantDuplicate {name : String} {value : List Token} {v : Word} {cause : Redefinition}
    (h : Expr.evalTokens image.symbols image.address value = .ok (some v))
    (hdefine : image.symbols.define name v none = .error cause) :
    Rejects isa image (.constant name value)

/-- The line has no label, or the name is taken. -/
def Unlabelled (image : Image) (line : Line) : Prop :=
  ∀ name, line.label = some name →
    ∃ cause, image.symbols.define name image.address (some image.active) = .error cause

/-- The line `text` with the number `n` is rejected behind the lines `before`. -/
inductive Rejected (settings : Settings) (before : List Line) (n : Nat) (text : List Char) :
    Prop where
  /-- It cannot be cut into tokens. -/
  | token {cause : TokenError} (h : Token.scan (Line.splitLabel text).2 = .error cause)
  /-- It starts with something that starts no statement. -/
  | noStatement {line : Line} (hread : (Line.read n text).1 = some line)
    (hlabel : Unlabelled (imageOf settings before) line) (hnone : line.statement = none)
  | statement {line : Line} {s : Statement} (hread : (Line.read n text).1 = some line)
    (hlabel : Unlabelled (imageOf settings before) line) (hstatement : line.statement = some s)
    (hrejects : Rejects settings.isa (imageOf settings before) s)

/-! ### What a rejected line leaves -/

/-- The line changes nothing in the first pass and leaves nothing to do for the second. -/
def Inert (isa : Isa) (image : Image) (line : Line) : Prop :=
  (placeLine isa image line).1 = image ∧ (placeLine isa image line).2.plan = .nothing

section Inert

variable {isa : Isa} {image : Image}

theorem placeStatement_of_rejects {s : Statement} (h : Rejects isa image s) :
    (placeStatement isa image (some s)).image = image ∧
      (placeStatement isa image (some s)).plan = .nothing := by
  cases h with
  | instruction h => simp only [placeStatement, placeInstruction, h, and_self]
  | @directive name args h =>
    simp only [placeStatement, placeDirective]
    rcases hread : Directive.read image.symbols image.address name args with ⟨d, problems⟩
    rw [hread] at h
    obtain rfl : d = none := h
    exact ⟨rfl, rfl⟩
  | overflow hdemand hroom => exact placeStatement_of_overflow hdemand hroom
  | constantWithoutValue => exact ⟨rfl, rfl⟩
  | constantExpression h =>
    simp only [placeStatement, bindConstant, h]
    split <;> exact ⟨rfl, rfl⟩
  | constantNotKnown h =>
    simp only [placeStatement, bindConstant, h]
    split <;> exact ⟨rfl, rfl⟩
  | constantDuplicate h hdefine =>
    simp only [placeStatement, bindConstant, h, hdefine]
    split <;> exact ⟨rfl, rfl⟩

theorem bindLabel_of_unlabelled {line : Line} (h : Unlabelled image line) :
    (bindLabel image line.label).1 = image := by
  cases hlabel : line.label with
  | none => rfl
  | some name =>
    obtain ⟨cause, hdefine⟩ := h name hlabel
    simp only [bindLabel, hdefine]

theorem inert_of_unlabelled {line : Line} (hlabel : Unlabelled image line)
    (hstatement : (placeStatement isa image line.statement).image = image ∧
      (placeStatement isa image line.statement).plan = .nothing) : Inert isa image line := by
  rw [Inert, placeLine_eq, bindLabel_of_unlabelled hlabel]
  exact hstatement

theorem inert_blank (n : Nat) : Inert isa image ⟨n, none, none⟩ := ⟨rfl, rfl⟩

end Inert

/-- What is kept of a rejected line is inert. -/
theorem inert_of_rejected {settings : Settings} {before : List Line} {n : Nat} {text : List Char}
    (h : Rejected settings before n text) :
    ∀ line ∈ (Line.read n text).1.toList, Inert settings.isa (imageOf settings before) line := by
  intro line hline
  have hread := Option.mem_toList.1 hline
  cases h with
  | token h => simp [Line.read, h] at hread
  | noStatement hread' hlabel hnone =>
    obtain rfl := Option.some.inj (hread'.symm.trans hread)
    exact inert_of_unlabelled hlabel (by rw [hnone]; exact ⟨rfl, rfl⟩)
  | statement hread' hlabel hstatement hrejects =>
    obtain rfl := Option.some.inj (hread'.symm.trans hread)
    exact inert_of_unlabelled hlabel (by rw [hstatement]; exact placeStatement_of_rejects hrejects)

/-! ### The lines around it -/

section Around

variable (settings : Settings)

/-- The lines as they are placed behind the lines `before`. -/
def placedBehind (before lines : List Line) : List Placed :=
  (placeLines settings.isa (imageOf settings before) lines).2

variable {settings} {before middle : List Line}

theorem placeLines_inert {isa : Isa} {image : Image} : ∀ {lines : List Line},
    (∀ line ∈ lines, Inert isa image line) →
    (placeLines isa image lines).1 = image ∧
      ∀ p ∈ (placeLines isa image lines).2, p.plan = .nothing
  | [], _ => ⟨rfl, by simp [placeLines]⟩
  | line :: lines, h => by
    obtain ⟨himage, hplan⟩ := h line List.mem_cons_self
    obtain ⟨hrest, hplans⟩ := placeLines_inert fun x hx => h x (List.mem_cons_of_mem line hx)
    simp only [placeLines, himage]
    refine ⟨hrest, fun p hp => ?_⟩
    rcases List.mem_cons.1 hp with rfl | hp
    · exact hplan
    · exact hplans p hp

/-- Behind inert lines all is placed as if they were not there. -/
theorem placeLines_around
    (h : ∀ line ∈ middle, Inert settings.isa (imageOf settings before) line) (after : List Line) :
    placeLines settings.isa (.start settings) (before ++ middle ++ after) =
      (imageOf settings (before ++ after),
        placedBehind settings [] before ++ placedBehind settings before middle ++
          placedBehind settings before after) := by
  have hmiddle : (placeLines settings.isa (.start settings) (before ++ middle)).1 =
      imageOf settings before :=
    (imageOf_append settings before middle).trans (placeLines_inert h).1
  rw [placeLines_append, hmiddle, placeLines_append, imageOf_append]
  rfl

theorem line_mem_of_placedBehind {lines : List Line} {p : Placed}
    (h : p ∈ placedBehind settings before lines) : p.line ∈ lines := by
  rw [← map_line_placeLines settings.isa lines (imageOf settings before)]
  exact List.mem_map_of_mem h

end Around

end Layout

/-! ### Modules -/

theorem Row.bytesIn_of_nothing {isa : Isa} {names : SymbolTable} {place : Section}
    {rows : List Row} (h : ∀ row ∈ rows, row.plan = .nothing) :
    bytesIn isa names place rows = [] := by
  refine List.flatMap_eq_nil_iff.2 fun row hrow => ?_
  rw [bytes, h row (List.mem_filter.1 hrow).1]
  rfl

theorem Row.realized_of_nothing {isa : Isa} {names : SymbolTable} {row : Row}
    (h : row.plan = .nothing) : row.realized isa names = { line := row.line.number } := by
  simp only [realized, h]

namespace Layout

variable {settings : Settings} {before middle : List Line}

/-- Inert lines add nothing to a module. -/
theorem module_around
    (h : ∀ line ∈ middle, Inert settings.isa (imageOf settings before) line) (after : List Line) :
    (Listing.ofLines settings (before ++ middle ++ after)).module settings =
      (Listing.ofLines settings (before ++ after)).module settings := by
  obtain ⟨himage, hrows⟩ := Listing.placeLines_start settings (before ++ middle ++ after)
  obtain ⟨himage', hrows'⟩ := Listing.placeLines_start settings (before ++ [] ++ after)
  rw [placeLines_around h after] at himage hrows
  rw [placeLines_around (by simp) after] at himage' hrows'
  rw [List.append_nil] at himage' hrows'
  have hnames : (Listing.ofLines settings (before ++ middle ++ after)).names =
      (Listing.ofLines settings (before ++ after)).names :=
    congrArg Image.symbols (himage.symm.trans himage')
  have hnothing : ∀ row ∈ (placedBehind settings before middle).map (·.row),
      row.plan = .nothing := by
    intro row hrow
    obtain ⟨p, hp, rfl⟩ := List.mem_map.1 hrow
    exact (placeLines_inert h).2 p hp
  have hrelocations : ((placedBehind settings before middle).map (·.row)).filterMap (fun row =>
      (row.realized settings.isa (Listing.ofLines settings (before ++ after)).names).relocation) =
        [] := by
    refine List.filterMap_eq_nil_iff.2 fun row hrow => ?_
    rw [Row.realized_of_nothing (hnothing row hrow)]
  simp only [List.map_append, placedBehind, placeLines, List.append_nil]
    at hrows hrows' hnothing hrelocations
  simp only [Listing.module, hnames, ← hrows, ← hrows', Row.bytesIn_append,
    Row.bytesIn_of_nothing hnothing, List.filterMap_append, hrelocations, List.append_nil]

end Layout

/-! ### Diagnostics -/

namespace Assembly

theorem references_append_none (realized realized' : List Realized) :
    ∀ {middle : List Realized}, (∀ r ∈ middle, r.relocation = none) →
    references (realized ++ middle ++ realized') = references (realized ++ realized')
  | [], _ => by rw [List.append_nil]
  | r :: middle, h => by
    have hrest := references_append_none realized realized'
      fun x hx => h x (List.mem_cons_of_mem r hx)
    have hnone := h r List.mem_cons_self
    simp only [references, List.foldl_append, List.foldl_cons, hnone] at hrest ⊢
    exact hrest

/-- A reference is under the line of what was realized. -/
theorem exists_of_mem_references {entry : Nat × String} {realized : List Realized}
    (h : entry ∈ references realized) : ∃ r ∈ realized, r.line = entry.1 := by
  induction realized using List.reverseRecOn with
  | nil => simp [references] at h
  | append_singleton realized r ih =>
    have hearlier : entry ∈ references realized → ∃ r' ∈ realized ++ [r], r'.line = entry.1 := by
      intro hmem
      obtain ⟨r', hr', hline⟩ := ih hmem
      exact ⟨r', List.mem_append_left _ hr', hline⟩
    rw [references, List.foldl_append] at h
    simp only [List.foldl_cons, List.foldl_nil] at h
    split at h
    · split at h
      · exact hearlier h
      · rcases List.mem_append.1 h with h | h
        · exact hearlier h
        · rw [List.mem_singleton.1 h]
          exact ⟨r, List.mem_append_right _ List.mem_cons_self, rfl⟩
    · exact hearlier h

theorem exists_of_mem_undefinedSymbols {symbols : SymbolTable} {realized : List Realized}
    {d : Diagnostic} (h : d ∈ undefinedSymbols symbols realized) :
    ∃ r ∈ realized, r.line = d.line := by
  obtain ⟨entry, hentry, hd⟩ := List.mem_filterMap.1 h
  dsimp only at hd
  split at hd
  · simp at hd
  · rw [← Option.some.inj hd]
    exact exists_of_mem_references hentry

end Assembly

open Layout in
/-- Inert lines have no diagnostics but those of the first pass, and leave those of all other lines
as they are. -/
theorem diagnostics_around {source : String} {settings : Settings} {a : Assembly}
    (h : assemble source settings = .ok a) {before middle after : List Line}
    (hlines : (Source.read source).lines = before ++ middle ++ after)
    (hinert : ∀ line ∈ middle, Inert settings.isa (imageOf settings before) line) :
    let others := placedBehind settings [] before ++ placedBehind settings before after
    a.diagnostics = Diagnostic.byLine
      ((Source.read source).diagnostics ++
        (placedBehind settings [] before ++ placedBehind settings before middle ++
          placedBehind settings before after).flatMap (·.diagnostics) ++
        others.flatMap (fun p => (p.row.realized settings.isa a.module.symbols).diagnostics) ++
        Assembly.undefinedSymbols a.module.symbols
          (others.map fun p => p.row.realized settings.isa a.module.symbols)) := by
  intro others
  have hplaced : (placeLines settings.isa (.start settings) (Source.read source).lines).2 =
      placedBehind settings [] before ++ placedBehind settings before middle ++
        placedBehind settings before after := by
    rw [hlines, placeLines_around hinert]
  have hrealized : ∀ p ∈ placedBehind settings before middle,
      p.row.realized settings.isa a.module.symbols = { line := p.line.number } :=
    fun p hp => Row.realized_of_nothing ((placeLines_inert hinert).2 p hp)
  have hnone : (placedBehind settings before middle).flatMap
      (fun p => (p.row.realized settings.isa a.module.symbols).diagnostics) = [] := by
    refine List.flatMap_eq_nil_iff.2 fun p hp => ?_
    rw [hrealized p hp]
    rfl
  have hreferences : Assembly.references (((placedBehind settings [] before) ++
      placedBehind settings before middle ++ placedBehind settings before after).map fun p =>
        p.row.realized settings.isa a.module.symbols) =
      Assembly.references (others.map fun p => p.row.realized settings.isa a.module.symbols) := by
    rw [List.map_append, List.map_append, List.map_append]
    refine Assembly.references_append_none _ _ fun r hr => ?_
    obtain ⟨p, hp, rfl⟩ := List.mem_map.1 hr
    rw [hrealized p hp]
  rw [diagnostics_assemble h hplaced, Assembly.undefinedSymbols, hreferences]
  simp only [List.flatMap_append, hnone, List.append_nil, others]
  rfl

/-! ### Emptying a line -/

namespace Source

/-- The source with nothing on the line that has `n` lines before it. -/
def blank (n : Nat) (source : String) : String := String.ofList (Text.blank n source.toList)

variable {source : String} {before : List (List Char)} {text : List Char}
  {after : List (List Char)}

/-- The lines around a line, and what is found when they are read. -/
theorem read_around (h : Text.lines source.toList = before ++ text :: after) :
    (read source).lines = linesFrom 1 before ++ (Line.read (before.length + 1) text).1.toList ++
        linesFrom (before.length + 2) after ∧
      (read source).diagnostics = reportFrom 1 before ++
        (Line.read (before.length + 1) text).2.map (⟨before.length + 1, ·⟩) ++
        reportFrom (before.length + 2) after := by
  rw [lines_read, diagnostics_read, h, linesFrom_append, reportFrom_append, linesFrom, reportFrom,
    Nat.add_comm 1 before.length, List.append_assoc, List.append_assoc]
  exact ⟨rfl, rfl⟩

/-- Only what the line gave is gone. -/
theorem read_blank (h : Text.lines source.toList = before ++ text :: after) :
    ∃ middle : List Line, (middle = [] ∨ middle = [⟨before.length + 1, none, none⟩]) ∧
      (read (blank before.length source)).lines =
        linesFrom 1 before ++ middle ++ linesFrom (before.length + 2) after ∧
      (read (blank before.length source)).diagnostics =
        reportFrom 1 before ++ reportFrom (before.length + 2) after := by
  have htext : (blank before.length source).toList = Text.blank before.length source.toList :=
    String.toList_ofList
  rcases Text.lines_blank h with hblank | ⟨rfl, hblank⟩
  · rw [← htext] at hblank
    obtain ⟨hlines, hreport⟩ := read_around hblank
    rw [Line.read_nil] at hlines hreport
    refine ⟨_, Or.inr rfl, hlines, ?_⟩
    rw [hreport, List.map_nil, List.append_nil]
  · refine ⟨[], Or.inl rfl, ?_, ?_⟩
    · rw [lines_read, htext, hblank]
      simp [linesFrom]
    · rw [diagnostics_read, htext, hblank]
      simp [reportFrom]

end Source

theorem Diagnostic.filter_ne {n : Nat} {ds : List Diagnostic} (h : ∀ d ∈ ds, d.line ≠ n) :
    ds.filter (·.line ≠ n) = ds :=
  List.filter_eq_self.2 fun d hd => decide_eq_true (h d hd)

theorem Diagnostic.filter_ne_nil {n : Nat} {ds : List Diagnostic} (h : ∀ d ∈ ds, d.line = n) :
    ds.filter (·.line ≠ n) = [] := by
  refine List.filter_eq_nil_iff.2 fun d hd => ?_
  simp [h d hd]

open Layout in
/-- Leaving out what is reported under the number of inert lines leaves what is reported about the
others. -/
theorem filter_diagnostics_around {source : String} {settings : Settings} {a : Assembly}
    (h : assemble source settings = .ok a) {before middle after : List Line}
    {report own report' : List Diagnostic} {n : Nat}
    (hlines : (Source.read source).lines = before ++ middle ++ after)
    (hreport : (Source.read source).diagnostics = report ++ own ++ report')
    (hinert : ∀ line ∈ middle, Inert settings.isa (imageOf settings before) line)
    (hmiddle : ∀ line ∈ middle, line.number = n) (hown : ∀ d ∈ own, d.line = n)
    (hothers : ∀ line ∈ before ++ after, line.number ≠ n)
    (hreports : ∀ d ∈ report ++ report', d.line ≠ n) :
    let others := placedBehind settings [] before ++ placedBehind settings before after
    a.diagnostics.filter (·.line ≠ n) = Diagnostic.byLine
      (report ++ report' ++ others.flatMap (·.diagnostics) ++
        others.flatMap (fun p => (p.row.realized settings.isa a.module.symbols).diagnostics) ++
        Assembly.undefinedSymbols a.module.symbols
          (others.map fun p => p.row.realized settings.isa a.module.symbols)) := by
  intro others
  have hnumber : ∀ p ∈ others, p.line.number ≠ n := by
    intro p hp
    refine hothers p.line (List.mem_append.2 ?_)
    rcases List.mem_append.1 hp with hp | hp
    · exact Or.inl (line_mem_of_placedBehind hp)
    · exact Or.inr (line_mem_of_placedBehind hp)
  -- what the other lines give is kept, and what the inert ones give is dropped
  have hread : (report ++ own ++ report').filter (·.line ≠ n) = report ++ report' := by
    rw [List.filter_append, List.filter_append, Diagnostic.filter_ne_nil hown, List.append_nil,
      ← List.filter_append, Diagnostic.filter_ne hreports]
  have hplaced : ((placedBehind settings [] before ++ placedBehind settings before middle ++
      placedBehind settings before after).flatMap (·.diagnostics)).filter (·.line ≠ n) =
        others.flatMap (·.diagnostics) := by
    have hdropped : ∀ d ∈ (placedBehind settings before middle).flatMap (·.diagnostics),
        d.line = n := by
      intro d hd
      obtain ⟨p, hp, hdp⟩ := List.mem_flatMap.1 hd
      rw [Placed.line_of_mem_diagnostics hdp]
      exact hmiddle p.line (line_mem_of_placedBehind hp)
    have hkept : ∀ d ∈ others.flatMap (·.diagnostics), d.line ≠ n := by
      intro d hd
      obtain ⟨p, hp, hdp⟩ := List.mem_flatMap.1 hd
      rw [Placed.line_of_mem_diagnostics hdp]
      exact hnumber p hp
    rw [List.flatMap_append, List.flatMap_append, List.filter_append, List.filter_append,
      Diagnostic.filter_ne_nil hdropped, List.append_nil, ← List.filter_append,
      ← List.flatMap_append, Diagnostic.filter_ne hkept]
  have hrealized : ∀ d ∈ others.flatMap
      (fun p => (p.row.realized settings.isa a.module.symbols).diagnostics), d.line ≠ n := by
    intro d hd
    obtain ⟨p, hp, hdp⟩ := List.mem_flatMap.1 hd
    rw [Row.line_of_mem_diagnostics hdp]
    exact hnumber p hp
  have hundefined : ∀ d ∈ Assembly.undefinedSymbols a.module.symbols
      (others.map fun p => p.row.realized settings.isa a.module.symbols), d.line ≠ n := by
    intro d hd
    obtain ⟨r, hr, hline⟩ := Assembly.exists_of_mem_undefinedSymbols hd
    obtain ⟨p, hp, rfl⟩ := List.mem_map.1 hr
    rw [← hline, Row.line_realized]
    exact hnumber p hp
  rw [diagnostics_around h hlines hinert, Diagnostic.filter_byLine, hreport, List.filter_append,
    List.filter_append, List.filter_append, hread, hplaced, Diagnostic.filter_ne hrealized,
    Diagnostic.filter_ne hundefined]

/-- A line that is rejected can be emptied: the module stays the same, and of the diagnostics only
those of the line are gone. -/
theorem isolation_assemble (source : String) (settings : Settings) {before : List (List Char)}
    {text : List Char} {after : List (List Char)}
    (hsource : Text.lines source.toList = before ++ text :: after)
    (hrejected : Layout.Rejected settings (Source.linesFrom 1 before) (before.length + 1) text) :
    ∃ a a', assemble source settings = .ok a ∧
      assemble (Source.blank before.length source) settings = .ok a' ∧
      a'.module = a.module ∧
      a'.diagnostics = a.diagnostics.filter (·.line ≠ before.length + 1) := by
  obtain ⟨a, hassemble⟩ := exists_assembly source settings
  obtain ⟨a', hassemble'⟩ := exists_assembly (Source.blank before.length source) settings
  obtain ⟨hlines, hreport⟩ := Source.read_around hsource
  obtain ⟨middle, hmiddle, hlines', hreport'⟩ := Source.read_blank hsource
  have hinert := Layout.inert_of_rejected hrejected
  have hblank : ∀ line ∈ middle, Layout.Inert settings.isa
      (Layout.imageOf settings (Source.linesFrom 1 before)) line := by
    rcases hmiddle with rfl | rfl
    · simp
    · simpa using Layout.inert_blank _
  have hmodule := module_assemble hassemble
  have hmodule' := module_assemble hassemble'
  rw [hlines, Layout.module_around hinert] at hmodule
  rw [hlines', Layout.module_around hblank, ← hmodule] at hmodule'
  refine ⟨_, _, hassemble, hassemble', hmodule', ?_⟩
  have hnothing : (Layout.placedBehind settings (Source.linesFrom 1 before) middle).flatMap
      (·.diagnostics) = [] := by
    rcases hmiddle with rfl | rfl <;> rfl
  rw [filter_diagnostics_around hassemble hlines hreport hinert]
  · rw [diagnostics_around hassemble' hlines' hblank, hreport', hmodule', List.flatMap_append,
      List.flatMap_append, hnothing, List.append_nil, ← List.flatMap_append]
  · intro line hline
    exact Line.number_read (Option.mem_toList.1 hline)
  · intro d hd
    obtain ⟨problem, -, rfl⟩ := List.mem_map.1 hd
    rfl
  · intro line hline
    rcases List.mem_append.1 hline with hline | hline
    · have := Source.number_of_mem_linesFrom hline
      omega
    · have := Source.number_of_mem_linesFrom hline
      omega
  · intro d hd
    rcases List.mem_append.1 hd with hd | hd
    · have := Source.line_of_mem_reportFrom hd
      omega
    · have := Source.line_of_mem_reportFrom hd
      omega

/-- A line with a label that is taken and a directive that nobody knows can be emptied. -/
theorem unknown_directive_isolated :
    ∃ a a', assemble "x: nop\nx: .bogus\nj x" {} = .ok a ∧
      assemble "x: nop\n\nj x" {} = .ok a' ∧ a'.module = a.module ∧
      a'.diagnostics = a.diagnostics.filter (·.line ≠ 2) := by
  have hblank : Source.blank 1 "x: nop\nx: .bogus\nj x" = "x: nop\n\nj x" := by decide +kernel
  have hlabel : Layout.Unlabelled (Layout.imageOf {} (Source.linesFrom 1 ["x: nop".toList]))
      ⟨2, some "x", some (.directive "bogus" [])⟩ := by
    rintro name hname
    obtain rfl := Option.some.inj hname
    exact ⟨⟨0x400000⟩, by decide +kernel⟩
  rw [← hblank]
  exact @isolation_assemble "x: nop\nx: .bogus\nj x" {} ["x: nop".toList] "x: .bogus".toList
    ["j x".toList] (by decide +kernel) (.statement (by decide +kernel) hlabel rfl
      (.directive (by decide +kernel)))

end Mips
