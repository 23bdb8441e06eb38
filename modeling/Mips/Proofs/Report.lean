import Mips.Proofs.Assembly
import Mips.Proofs.Source

/-!
# What is reported about a line

The number of a line tells it from all others, so the diagnostics under that number are those of the
line: first what was found when it was read, then what the first and the second pass found, and last
the names that nothing declares (`problemsAt_assemble`). What the first pass can find is said once,
in `Layout.Finding`.
-/

namespace Mips

/-- Of lists that belong to different lines, picking one line takes the list of that line. -/
theorem Diagnostic.filter_flatMap_line {α : Type} {f : α → List Diagnostic} {n : Nat}
    {before after : List α} {x : α} (hown : ∀ d ∈ f x, d.line = n)
    (hbefore : ∀ y ∈ before, ∀ d ∈ f y, d.line ≠ n) (hafter : ∀ y ∈ after, ∀ d ∈ f y, d.line ≠ n) :
    ((before ++ x :: after).flatMap f).filter (·.line = n) = f x := by
  have hothers : ∀ ys : List α, (∀ y ∈ ys, ∀ d ∈ f y, d.line ≠ n) →
      (ys.flatMap f).filter (·.line = n) = [] := by
    intro ys hys
    refine List.filter_eq_nil_iff.2 fun d hd hline => ?_
    obtain ⟨y, hy, hdy⟩ := List.mem_flatMap.1 hd
    exact hys y hy d hdy (of_decide_eq_true hline)
  have hkept : (f x).filter (·.line = n) = f x :=
    List.filter_eq_self.2 fun d hd => decide_eq_true (hown d hd)
  rw [List.flatMap_append, List.flatMap_cons, List.filter_append, List.filter_append,
    hothers before hbefore, hothers after hafter, hkept, List.nil_append, List.append_nil]

theorem Placed.line_of_mem_diagnostics {p : Placed} {d : Diagnostic} (h : d ∈ p.diagnostics) :
    d.line = p.line.number := by
  obtain ⟨problem, -, rfl⟩ := List.mem_map.1 h
  rfl

theorem Row.line_of_mem_diagnostics {isa : Isa} {names : SymbolTable} {row : Row} {d : Diagnostic}
    (h : d ∈ (row.realized isa names).diagnostics) : d.line = row.line.number := by
  obtain ⟨problem, -, rfl⟩ := List.mem_map.1 h
  exact Row.line_realized ..

/-! ### A line in the first pass -/

namespace Layout

theorem placeLines_append (isa : Isa) (lines' : List Line) : ∀ (lines : List Line) (image : Image),
    placeLines isa image (lines ++ lines') =
      ((placeLines isa (placeLines isa image lines).1 lines').1,
        (placeLines isa image lines).2 ++
          (placeLines isa (placeLines isa image lines).1 lines').2)
  | [], image => rfl
  | line :: lines, image => by
    simp only [List.cons_append, placeLines]
    rw [placeLines_append isa lines' lines (placeLine isa image line).1]

theorem map_line_placeLines (isa : Isa) : ∀ (lines : List Line) (image : Image),
    (placeLines isa image lines).2.map (·.line) = lines
  | [], _ => rfl
  | line :: lines, image => by
    simp only [placeLines, List.map_cons, map_line_placeLines isa lines]
    rfl

variable (settings : Settings)

/-- The image that the first pass has made of `lines`. -/
def imageOf (lines : List Line) : Image := (placeLines settings.isa (.start settings) lines).1

/-- What the first pass makes of a line behind the lines `before`. -/
def placedAfter (before : List Line) (line : Line) : Placed :=
  (placeLine settings.isa (imageOf settings before) line).2

theorem imageOf_eq (lines : List Line) :
    imageOf settings lines = (Listing.ofLines settings lines).image settings :=
  (Listing.placeLines_start settings lines).1

theorem row_placedAfter (before : List Line) (line : Line) :
    (placedAfter settings before line).row =
      (Listing.ofLines settings before).row settings line := by
  rw [placedAfter, imageOf_eq]
  exact (Listing.placeLine_image settings _ line).2

theorem imageOf_append (before lines : List Line) :
    imageOf settings (before ++ lines) =
      (placeLines settings.isa (imageOf settings before) lines).1 := by
  rw [imageOf, placeLines_append]
  rfl

theorem row_mem_rows {lines : List Line} {p : Placed}
    (h : p ∈ (placeLines settings.isa (.start settings) lines).2) :
    p.row ∈ (Listing.ofLines settings lines).rows := by
  rw [← (Listing.placeLines_start settings lines).2]
  exact List.mem_map_of_mem h

/-- A row of a listing is what the first pass makes of its line behind the lines before it. -/
theorem row_of_split {lines : List Line} {before : List Row} {row : Row} {after : List Row}
    (h : (Listing.ofLines settings lines).rows = before ++ row :: after) :
    lines = before.map (·.line) ++ row.line :: after.map (·.line) ∧
      (placedAfter settings (before.map (·.line)) row.line).row = row := by
  have hlines := Listing.map_line_rows settings lines
  rw [h, List.map_append, List.map_cons] at hlines
  obtain ⟨l, hl, hrow, ⟨lines', rfl⟩, -⟩ := Listing.rows_split settings lines h
  refine ⟨hlines.symm, ?_⟩
  rw [row_placedAfter, ← hl, Listing.map_line_rows, hrow]

/-- A line is placed behind those before it. -/
theorem placeLines_split (before : List Line) (line : Line) (after : List Line) :
    ∃ first rest,
      (placeLines settings.isa (.start settings) (before ++ line :: after)).2 =
        first ++ placedAfter settings before line :: rest ∧
      first.map (·.line) = before ∧ rest.map (·.line) = after := by
  rw [placeLines_append]
  exact ⟨_, _, rfl, map_line_placeLines settings.isa before _,
    map_line_placeLines settings.isa after _⟩

/-- A placed line is what the first pass makes of it behind the lines before it. -/
theorem placed_of_split {lines : List Line} {first : List Placed} {p : Placed}
    {rest : List Placed}
    (h : (placeLines settings.isa (.start settings) lines).2 = first ++ p :: rest) :
    lines = first.map (·.line) ++ p.line :: rest.map (·.line) ∧
      p = placedAfter settings (first.map (·.line)) p.line := by
  have hlines := map_line_placeLines settings.isa lines (.start settings)
  rw [h, List.map_append, List.map_cons] at hlines
  obtain ⟨first', rest', hsplit, hfirst, -⟩ :=
    placeLines_split settings (first.map (·.line)) p.line (rest.map (·.line))
  rw [hlines, h] at hsplit
  have hlength : first.length = first'.length := by
    simpa using (congrArg List.length hfirst).symm
  exact ⟨hlines.symm, (List.cons.inj (List.append_inj_right hsplit hlength)).1⟩

theorem duplicate_of_mem_bindLabel {image : Image} {label : Option String} {problem : Problem}
    (h : problem ∈ (bindLabel image label).2) :
    ∃ name cause, problem = .duplicate .label name cause := by
  cases label with
  | none => simp [bindLabel] at h
  | some name =>
    unfold bindLabel at h
    dsimp only at h
    split at h
    · simp at h
    · exact ⟨name, _, List.mem_singleton.1 h⟩

end Layout

/-! ### What the first pass can find -/

/-- Whether a problem is about a constant. -/
def Problem.refusesConstant : Problem → Bool
  | .constantWithoutValue _ | .constantNotKnown _ | .expression _ | .duplicate .constant _ _ => true
  | _ => false

namespace Layout

/-- A problem that the first pass can find with a line. -/
inductive Finding (line : Line) : Problem → Prop where
  | label (name : String) (cause : Redefinition) : Finding line (.duplicate .label name cause)
  | mnemonic {problem : Problem} (h : problem.refusesMnemonic = true) : Finding line problem
  | constant {problem : Problem} (h : problem.refusesConstant = true) : Finding line problem
  | directive {problem : Problem} {symbols : SymbolTable} {address : Word} {name : String}
    {args : List Token} (hstatement : line.statement = some (.directive name args))
    (h : problem ∈ (Directive.read symbols address name args).2) : Finding line problem
  | overflow (place : Section) : Finding line (.overflow place)

/-- A constant is bound to its value, or refused. -/
theorem bindConstant_eq (image : Image) (name : String) (value : List Token) :
    (∃ v symbols, Expr.evalTokens image.symbols image.address value = .ok (some v) ∧
      image.symbols.define name v none = .ok symbols ∧
      bindConstant image name value =
        { image := { image with symbols }, bound := some (name, v) }) ∨
    ∃ problem, problem.refusesConstant = true ∧
      bindConstant image name value = { image, problems := [problem] } := by
  unfold bindConstant
  split
  · exact Or.inr ⟨_, rfl, rfl⟩
  · cases heval : Expr.evalTokens image.symbols image.address value with
    | error cause => exact Or.inr ⟨_, rfl, rfl⟩
    | ok v =>
      cases v with
      | none => exact Or.inr ⟨_, rfl, rfl⟩
      | some v =>
        cases hdefine : image.symbols.define name v none with
        | ok symbols => exact Or.inl ⟨v, symbols, rfl, hdefine, by simp [hdefine]⟩
        | error cause => exact Or.inr ⟨.duplicate .constant name cause, rfl, by simp [hdefine]⟩

theorem finding_placeStatement {isa : Isa} {image : Image} {line : Line} {problem : Problem}
    (h : problem ∈ (placeStatement isa image line.statement).problems) : Finding line problem := by
  rcases hstatement : line.statement with _ | ⟨name, args⟩ | ⟨name, args⟩ | ⟨name, value⟩
  · simp [hstatement, placeStatement] at h
  · simp only [hstatement, placeStatement, placeInstruction] at h
    split at h
    · next cause hselect =>
      rw [List.mem_singleton.1 h]
      exact .mnemonic (Mnemonic.refusesMnemonic_of_select hselect)
    · split at h
      · simp at h
      · rw [List.mem_singleton.1 h]
        exact .overflow image.active
  · have hread : ∀ problem ∈ (Directive.read image.symbols image.address name args).2,
        Finding line problem := fun problem hmem => .directive hstatement hmem
    simp only [hstatement, placeStatement, placeDirective] at h
    rcases hdirective : Directive.read image.symbols image.address name args with ⟨d, problems⟩
    rw [hdirective] at h hread
    cases d with
    | none => exact hread problem h
    | some d =>
      dsimp only at h
      split at h
      · exact hread problem h
      · rcases List.mem_append.1 h with h | h
        · exact hread problem h
        · rw [List.mem_singleton.1 h]
          exact .overflow image.active
  · simp only [hstatement, placeStatement] at h
    rcases bindConstant_eq image name value with ⟨v, symbols, -, -, hbind⟩ | ⟨cause, hcause, hbind⟩
    · simp [hbind] at h
    · rw [hbind] at h
      rw [List.mem_singleton.1 h]
      exact .constant hcause

theorem finding_placeLines {isa : Isa} {image : Image} {lines : List Line} {p : Placed}
    (hp : p ∈ (placeLines isa image lines).2) {problem : Problem} (h : problem ∈ p.problems) :
    Finding p.line problem := by
  induction lines generalizing image with
  | nil => simp [placeLines] at hp
  | cons line lines ih =>
    rw [placeLines] at hp
    rcases List.mem_cons.1 hp with rfl | hp
    · rw [placeLine_eq] at h
      rcases List.mem_append.1 h with h | h
      · obtain ⟨name, cause, rfl⟩ := duplicate_of_mem_bindLabel h
        exact .label name cause
      · exact finding_placeStatement h
    · exact ih hp

end Layout

/-! ### Diagnostics of one line -/

namespace Assembly

/-- The problems that are reported under a line number, in their order. -/
def problemsAt (a : Assembly) (n : Nat) : List Problem :=
  (a.diagnostics.filter (·.line = n)).map (·.problem)

theorem mem_problemsAt {a : Assembly} {n : Nat} {problem : Problem} :
    problem ∈ a.problemsAt n ↔ ⟨n, problem⟩ ∈ a.diagnostics := by
  constructor
  · intro h
    obtain ⟨d, hd, rfl⟩ := List.mem_map.1 h
    obtain ⟨hmem, hline⟩ := List.mem_filter.1 hd
    rw [← of_decide_eq_true hline]
    exact hmem
  · intro h
    exact List.mem_map.2 ⟨_, List.mem_filter.2 ⟨h, decide_eq_true rfl⟩, rfl⟩

theorem undefinedSymbol_of_mem {symbols : SymbolTable} {realized : List Realized} {d : Diagnostic}
    (h : d ∈ undefinedSymbols symbols realized) : ∃ name, d.problem = .undefinedSymbol name := by
  obtain ⟨⟨line, name⟩, -, hd⟩ := List.mem_filterMap.1 h
  dsimp only at hd
  split at hd
  · simp at hd
  · exact ⟨name, by rw [← Option.some.inj hd]⟩

end Assembly

/-- The diagnostics of an assembly, by the lines as they were placed. -/
theorem diagnostics_assemble {source : String} {settings : Settings} {a : Assembly}
    (h : assemble source settings = .ok a) {placed : List Placed}
    (hplaced : (Layout.placeLines settings.isa (.start settings) (Source.read source).lines).2 =
      placed) :
    a.diagnostics = Diagnostic.byLine
      ((Source.read source).diagnostics ++ placed.flatMap (·.diagnostics) ++
        placed.flatMap (fun p => (p.row.realized settings.isa a.module.symbols).diagnostics) ++
        Assembly.undefinedSymbols a.module.symbols
          (placed.map fun p => p.row.realized settings.isa a.module.symbols)) := by
  obtain ⟨trace, hassemble⟩ := assemble_eq source settings rfl
  obtain ⟨-, hrows⟩ := Listing.placeLines_start settings (Source.read source).lines
  rw [← Except.ok.inj (hassemble.symm.trans h), ← hrows, hplaced, List.flatMap_map, List.map_map]
  rfl

/-- No other line has the number of a line. -/
theorem Source.number_ne {source : String} {before : List Line} {line : Line} {after : List Line}
    (hsplit : (read source).lines = before ++ line :: after) :
    (∀ x ∈ before, x.number ≠ line.number) ∧ ∀ x ∈ after, x.number ≠ line.number := by
  have hpairwise := pairwise_linesFrom (Text.lines source.toList) 1
  rw [← lines_read, hsplit] at hpairwise
  obtain ⟨-, hbehind, hfront⟩ := List.pairwise_append.1 hpairwise
  exact ⟨fun x hx => Nat.ne_of_lt (hfront x hx line List.mem_cons_self),
    fun x hx => Nat.ne_of_gt ((List.pairwise_cons.1 hbehind).1 x hx)⟩

/-- What is reported under the number of a line was found when it was read, in the first pass and in
the second pass, in this order, apart from names without a declaration. -/
theorem problemsAt_assemble {source : String} {settings : Settings} {a : Assembly}
    (h : assemble source settings = .ok a) {before : List Line} {line : Line} {after : List Line}
    (hsplit : (Source.read source).lines = before ++ line :: after) :
    let p := Layout.placedAfter settings before line
    ∃ text undefined, (Line.read line.number text).1 = some line ∧
      (∀ problem ∈ undefined, ∃ name, problem = .undefinedSymbol name) ∧
      a.problemsAt line.number =
        (Line.read line.number text).2 ++ p.problems ++
          (p.row.realized settings.isa a.module.symbols).problems ++ undefined := by
  intro p
  have hmem : line ∈ Source.linesFrom 1 (Text.lines source.toList) := by
    rw [← Source.lines_read, hsplit]
    exact List.mem_append_right _ List.mem_cons_self
  obtain ⟨texts, text, texts', htexts, hnumber, hread⟩ := Source.exists_text hmem
  obtain ⟨first, rest, hplaced, hfirst, hrest⟩ : ∃ first rest,
      (Layout.placeLines settings.isa (.start settings) (before ++ line :: after)).2 =
        first ++ p :: rest ∧ first.map (·.line) = before ∧ rest.map (·.line) = after :=
    Layout.placeLines_split settings before line after
  obtain ⟨hbefore, hafter⟩ := Source.number_ne hsplit
  have hfirst' : ∀ p ∈ first, p.line.number ≠ line.number := fun p hp =>
    hbefore p.line (hfirst ▸ List.mem_map_of_mem hp)
  have hrest' : ∀ p ∈ rest, p.line.number ≠ line.number := fun p hp =>
    hafter p.line (hrest ▸ List.mem_map_of_mem hp)
  -- each list of diagnostics, cut down to the line
  have hsource : (Source.read source).diagnostics.filter (·.line = line.number) =
      (Line.read line.number text).2.map (⟨line.number, ·⟩) := by
    rw [Source.diagnostics_read, htexts, hnumber]
    exact Source.filter_reportFrom texts text texts' 1
  have hlayout : ((first ++ p :: rest).flatMap (·.diagnostics)).filter
      (·.line = line.number) = p.diagnostics := by
    refine Diagnostic.filter_flatMap_line (fun d hd => Placed.line_of_mem_diagnostics hd) ?_ ?_
    · intro q hq d hd
      rw [Placed.line_of_mem_diagnostics hd]
      exact hfirst' q hq
    · intro q hq d hd
      rw [Placed.line_of_mem_diagnostics hd]
      exact hrest' q hq
  have hrealized : ((first ++ p :: rest).flatMap fun q =>
      (q.row.realized settings.isa a.module.symbols).diagnostics).filter (·.line = line.number) =
        (p.row.realized settings.isa a.module.symbols).diagnostics := by
    refine Diagnostic.filter_flatMap_line (fun d hd => Row.line_of_mem_diagnostics hd) ?_ ?_
    · intro q hq d hd
      rw [Row.line_of_mem_diagnostics hd]
      exact hfirst' q hq
    · intro q hq d hd
      rw [Row.line_of_mem_diagnostics hd]
      exact hrest' q hq
  rw [← hsplit] at hplaced
  rw [Assembly.problemsAt, diagnostics_assemble h hplaced, Diagnostic.filter_line_byLine,
    List.filter_append, List.filter_append, List.filter_append, hsource, hlayout, hrealized]
  refine ⟨text, ((Assembly.undefinedSymbols a.module.symbols ((first ++ p :: rest).map fun q =>
    q.row.realized settings.isa a.module.symbols)).filter (·.line = line.number)).map (·.problem),
    hread, ?_, ?_⟩
  · intro problem hproblem
    obtain ⟨d, hd, rfl⟩ := List.mem_map.1 hproblem
    exact Assembly.undefinedSymbol_of_mem (List.mem_filter.1 hd).1
  · simp [Placed.diagnostics, Realized.diagnostics, Function.comp_def]

end Mips
