import Mathlib.Data.List.Find
import Mips.Proofs.Outcome
import Mips.Proofs.Reading

/-!
# Names that nothing declares

The second pass keeps, for every name that a relocation waits for, the first line that does. Such a
name has no address, or there would be nothing to wait for, so it is declared exactly if a line
exports it. The warnings about undeclared names are therefore those of the first lines, less the
exported names, and nothing else in the assembler gives such a warning.

    relocations   far  ext  far  gone
    first lines   far  ext       gone
    exported           ext
    warnings      far            gone
-/

namespace Mips

/-! ### First references -/

/-- Whether the relocation of a line waits for `name`. -/
def Realized.refersTo (name : String) (r : Realized) : Bool := r.relocation.any (·.symbol = name)

namespace Assembly

theorem references_concat (realized : List Realized) (r : Realized) :
    references (realized ++ [r]) = references realized ++
      (r.relocation.toList.filter fun reloc =>
        !(references realized).any (·.2 = reloc.symbol)).map fun reloc => (r.line, reloc.symbol) := by
  rw [references, List.foldl_append, ← references]
  cases hr : r.relocation with
  | none => simp [hr]
  | some reloc =>
    cases hseen : (references realized).any (·.2 = reloc.symbol) <;> simp [hr, hseen]

theorem any_references (name : String) (realized : List Realized) :
    (references realized).any (·.2 = name) = realized.any (·.refersTo name) := by
  induction realized using List.reverseRecOn with
  | nil => rfl
  | append_singleton realized r ih =>
    rw [references_concat, List.any_append, List.any_append, ih, List.any_cons, List.any_nil,
      Bool.or_false, Realized.refersTo]
    cases hr : r.relocation with
    | none => simp
    | some reloc =>
      by_cases hname : reloc.symbol = name
      · -- a name that was seen before is not added, but then it is there already
        subst hname
        cases hseen : realized.any (·.refersTo reloc.symbol) <;> simp [ih, hseen]
      · cases hseen : (references realized).any (·.2 = reloc.symbol) <;> simp [hseen, hname]

/-- A name is kept with the first line that waits for it. -/
theorem mem_references {n : Nat} {name : String} {realized : List Realized} :
    (n, name) ∈ references realized ↔
      (realized.find? (·.refersTo name)).map (·.line) = some n := by
  induction realized using List.reverseRecOn with
  | nil => simp [references]
  | append_singleton realized r ih =>
    rw [references_concat, List.mem_append, ih, List.find?_append]
    cases hfirst : realized.find? (·.refersTo name) with
    | some first =>
      have hseen : realized.any (·.refersTo name) = true :=
        List.any_eq_true.2 ⟨first, List.mem_of_find?_eq_some hfirst, List.find?_some hfirst⟩
      simp only [Option.some_or, Option.map_some, or_iff_left_iff_imp]
      intro hmem
      obtain ⟨reloc, hreloc, heq⟩ := List.mem_map.1 hmem
      obtain ⟨-, rfl⟩ := Prod.mk.inj heq
      simp [any_references, hseen] at hreloc
    | none =>
      have hseen : realized.any (·.refersTo name) = false := by
        simpa using List.find?_eq_none.1 hfirst
      cases hr : r.relocation with
      | none => simp [Realized.refersTo, hr]
      | some reloc =>
        have hrefers : r.refersTo name = decide (reloc.symbol = name) := by
          simp [Realized.refersTo, hr]
        by_cases hname : reloc.symbol = name
        · subst hname
          simpa [any_references, hseen, hrefers] using eq_comm
        · simp [hrefers, hname]

/-- No name is kept twice. -/
theorem nodup_references (realized : List Realized) :
    ((references realized).map (·.2)).Nodup := by
  induction realized using List.reverseRecOn with
  | nil => exact List.nodup_nil
  | append_singleton realized r ih =>
    rw [references_concat, List.map_append]
    cases hr : r.relocation with
    | none => simpa using ih
    | some reloc =>
      cases hseen : (references realized).any (·.2 = reloc.symbol) with
      | true => simpa [hseen] using ih
      | false =>
        have hnew : reloc.symbol ∉ (references realized).map (·.2) := by
          rintro hmem
          obtain ⟨entry, hentry, heq⟩ := List.mem_map.1 hmem
          exact List.any_eq_false.1 hseen entry hentry (decide_eq_true heq)
        simpa [hseen, List.nodup_append] using ⟨ih, fun a b hb heq => hnew (heq ▸
          List.mem_map.2 ⟨_, hb, rfl⟩)⟩

end Assembly

/-! ### Exported names -/

namespace SymbolTable

theorem exports_bind (t : SymbolTable) (name other : String) (a : Word) (home : Option Section) :
    (t.bind name a home).exports other = t.exports other := by
  by_cases hother : other = name
  · subst hother
    rw [exports, bind, get?_alter_self]
    cases hs : t.get? other <;> simp [exports, hs]
  · rw [exports, bind, get?_alter_of_ne _ _ hother, ← exports]

theorem exports_tryDefine (t : SymbolTable) (name other : String) (a : Word)
    (home : Option Section) : (t.tryDefine name a home).exports other = t.exports other := by
  unfold tryDefine
  cases hdefine : t.define name a home with
  | error cause => rfl
  | ok u =>
    obtain ⟨rfl, -⟩ := define_eq_ok hdefine
    exact exports_bind t name other a home

theorem exports_markGlobal (t : SymbolTable) (name other : String) :
    (t.markGlobal name).exports other = true ↔ t.exports other = true ∨ name = other := by
  by_cases hother : other = name
  · subst hother
    simp [exports_markGlobal_self]
  · rw [exports, markGlobal, get?_alter_of_ne _ _ hother, ← exports]
    simp [Ne.symm hother]

end SymbolTable

namespace Listing

variable (settings : Settings) (name : String)

/-- The next line exports a name if its plan says so. -/
theorem exports_add (l : Listing) (line : Line) :
    (l.add settings line).names.exports name = true ↔
      l.names.exports name = true ∨ (l.row settings line).plan = .directive (.global name) := by
  have hknown : (l.known settings line).exports name = l.names.exports name := by
    unfold known labelled
    cases line.label with
    | none => rfl
    | some label => exact SymbolTable.exports_tryDefine ..
  rw [← hknown, add]
  dsimp only
  generalize hplan : (l.row settings line).plan = plan
  unfold namesAfter
  split
  · -- a constant has no plan, and a definition exports nothing
    next hstatement =>
    have hnothing : plan = .nothing := by rw [← hplan, row, hstatement, Listing.plan]
    subst hnothing
    split
    · simp [SymbolTable.exports_tryDefine]
    · simp
  · split
    · simp [SymbolTable.exports_markGlobal]
    · next hother =>
      have hplain : plan ≠ .directive (.global name) := by
        rintro rfl
        exact hother name rfl
      simp [hplain]

/-- The exported names are those of the directives that the lines were planned as. -/
theorem exports_ofLines (lines : List Line) :
    (ofLines settings lines).names.exports name = true ↔
      ∃ row ∈ (ofLines settings lines).rows, row.plan = .directive (.global name) := by
  induction lines using List.reverseRecOn with
  | nil => simp [ofLines, empty, SymbolTable.exports, SymbolTable.get?, SymbolTable.empty]
  | append_singleton lines line ih =>
    rw [ofLines_concat, exports_add, ih]
    simp [add, or_and_right, exists_or]

end Listing

/-! ### Names without address -/

theorem Row.address?_relocation? {isa : Isa} {names : SymbolTable} {row : Row} {r : Relocation}
    (h : row.relocation? isa names = some r) : names.address? r.symbol = none := by
  unfold relocation? at h
  split at h
  · split at h
    · obtain ⟨symbol, hsymbol, rfl⟩ := Option.map_eq_some_iff.1 h
      obtain ⟨⟨kind, arg⟩, -, hfind⟩ := Option.bind_eq_some_iff.1 hsymbol
      have hnone : (names.address? symbol).isNone = true :=
        List.find?_some (p := fun name => (names.address? name).isNone) hfind
      exact Option.isNone_iff_eq_none.1 hnone
    · simp at h
  · simp at h
  · simp at h

/-- A name without address is declared if it is exported. -/
theorem Assembly.isDeclared_of_address? {symbols : SymbolTable} {name : String}
    (h : symbols.address? name = none) : isDeclared symbols name = symbols.exports name := by
  unfold isDeclared SymbolTable.exports
  cases hs : symbols.get? name with
  | none => rfl
  | some s =>
    have haddress : s.address = none := by simpa [SymbolTable.address?, hs] using h
    simp [haddress]

/-! ### Where the warnings come from -/

/-- The name that a problem says to be undeclared. -/
def Problem.undeclared? : Problem → Option String
  | .undefinedSymbol name => some name
  | _ => none

/-- The undeclared names that were reported, each with its line. -/
def Assembly.undeclared (a : Assembly) : List (Nat × String) :=
  a.diagnostics.filterMap fun d => d.problem.undeclared?.map (d.line, ·)

theorem Problem.undeclared?_of_isLate {problem : Problem} (h : problem.isLate = false) :
    problem.undeclared? = none := by
  cases problem with
  | undefinedSymbol name => simp [isLate] at h
  | _ => rfl

theorem Problem.undeclared?_of_refusesMnemonic {problem : Problem}
    (h : problem.refusesMnemonic = true) : problem.undeclared? = none := by
  cases problem with
  | undefinedSymbol name => simp [refusesMnemonic] at h
  | _ => rfl

theorem Problem.undeclared?_of_blamesOperand {problem : Problem}
    (h : problem.blamesOperand = true) : problem.undeclared? = none := by
  cases problem with
  | undefinedSymbol name => simp [blamesOperand] at h
  | _ => rfl

theorem Problem.undeclared?_of_refusesConstant {problem : Problem}
    (h : problem.refusesConstant = true) : problem.undeclared? = none := by
  cases problem with
  | undefinedSymbol name => simp [refusesConstant] at h
  | _ => rfl

theorem Layout.undeclared?_of_finding {line : Line} {problem : Problem} (h : Finding line problem) :
    problem.undeclared? = none := by
  cases h with
  | label name cause => rfl
  | mnemonic h => exact Problem.undeclared?_of_refusesMnemonic h
  | constant h => exact Problem.undeclared?_of_refusesConstant h
  | directive hstatement h =>
    exact Problem.undeclared?_of_isLate (Directive.isLate_read _ _ _ _ problem h)
  | overflow place => rfl

theorem Source.undeclared?_reportFrom (texts : List (List Char)) (n : Nat) :
    ∀ d ∈ reportFrom n texts, d.problem.undeclared? = none := by
  intro d hd
  obtain ⟨text, -, hproblem⟩ := exists_of_mem_reportFrom hd
  exact Problem.undeclared?_of_isLate (Line.isLate_read d.line text d.problem hproblem)

theorem Row.undeclared?_realized {isa : Isa} {row : Row} (h : row.Selected isa)
    (names : SymbolTable) :
    ∀ problem ∈ (row.realized isa names).problems, problem.undeclared? = none := by
  intro problem hmem
  rcases problem_realized h names problem hmem with hoperand | ⟨field, n, rfl⟩
  · exact Problem.undeclared?_of_blamesOperand hoperand
  · rfl

namespace Assembly

theorem filterMap_undeclared?_eq_nil {ds : List Diagnostic}
    (h : ∀ d ∈ ds, d.problem.undeclared? = none) :
    ds.filterMap (fun d => d.problem.undeclared?.map (d.line, ·)) = [] := by
  refine List.filterMap_eq_nil_iff.2 fun d hd => ?_
  rw [h d hd]
  rfl

theorem filterMap_undefinedSymbols (symbols : SymbolTable) (realized : List Realized) :
    (undefinedSymbols symbols realized).filterMap
        (fun d => d.problem.undeclared?.map (d.line, ·)) =
      (references realized).filter fun entry => !isDeclared symbols entry.2 := by
  rw [undefinedSymbols, List.filterMap_filterMap, ← List.filterMap_eq_filter]
  refine List.filterMap_congr fun entry _ => ?_
  cases hdeclared : isDeclared symbols entry.2 <;>
    simp [hdeclared, Problem.undeclared?, Option.guard]

/-- The warnings about names are those of the first references to names that are not declared. -/
theorem undeclared_perm {source : String} {settings : Settings} {a : Assembly} {l : Listing}
    (hl : l = Listing.ofLines settings (Source.read source).lines)
    (h : assemble source settings = .ok a) :
    a.undeclared.Perm ((references (l.rows.map (·.realized settings.isa l.names))).filter
      fun entry => !isDeclared l.names entry.2) := by
  obtain ⟨trace, hassemble⟩ := assemble_eq source settings hl
  have hread : ∀ d ∈ (Source.read source).diagnostics, d.problem.undeclared? = none := by
    rw [Source.diagnostics_read]
    exact Source.undeclared?_reportFrom _ 1
  have hplaced : ∀ d ∈ (Layout.placeLines settings.isa (.start settings)
      (Source.read source).lines).2.flatMap (·.diagnostics), d.problem.undeclared? = none := by
    intro d hd
    obtain ⟨p, hp, hd⟩ := List.mem_flatMap.1 hd
    obtain ⟨problem, hproblem, rfl⟩ := List.mem_map.1 hd
    exact Layout.undeclared?_of_finding (Layout.finding_placeLines hp hproblem)
  have hrealized : ∀ d ∈ l.rows.flatMap (fun row => (row.realized settings.isa l.names).diagnostics),
      d.problem.undeclared? = none := by
    intro d hd
    obtain ⟨row, hrow, hd⟩ := List.mem_flatMap.1 hd
    obtain ⟨problem, hproblem, rfl⟩ := List.mem_map.1 hd
    subst hl
    exact Row.undeclared?_realized (Listing.selected_of_mem hrow) _ problem hproblem
  rw [undeclared, ← Except.ok.inj (hassemble.symm.trans h)]
  refine ((Diagnostic.byLine_perm _).filterMap _).trans (List.Perm.of_eq ?_)
  rw [List.filterMap_append, List.filterMap_append, List.filterMap_append,
    filterMap_undeclared?_eq_nil hread, filterMap_undeclared?_eq_nil hplaced,
    filterMap_undeclared?_eq_nil hrealized, filterMap_undefinedSymbols]
  rfl

end Assembly

/-! ### The warnings of a source -/

/-- Whether the relocation of a row waits for `name`. -/
def Row.refersTo (isa : Isa) (names : SymbolTable) (name : String) (row : Row) : Bool :=
  (row.relocation? isa names).any (·.symbol = name)

theorem Row.refersTo_realized {isa : Isa} {row : Row} (h : row.Selected isa) (names : SymbolTable)
    (name : String) : (row.realized isa names).refersTo name = row.refersTo isa names name := by
  rw [Realized.refersTo, relocation_realized h, refersTo]

namespace Listing

variable {settings : Settings} {lines : List Line}

/-- A name is kept with the first row that waits for it. -/
theorem mem_references_rows {n : Nat} {name : String} (names : SymbolTable) :
    (n, name) ∈ Assembly.references
        ((ofLines settings lines).rows.map (·.realized settings.isa names)) ↔
      ((ofLines settings lines).rows.find? (·.refersTo settings.isa names name)).map
        (·.line.number) = some n := by
  have hfind : (ofLines settings lines).rows.find?
      ((Realized.refersTo name) ∘ (·.realized settings.isa names)) =
        (ofLines settings lines).rows.find? (·.refersTo settings.isa names name) :=
    List.find?_congr fun row hrow => Row.refersTo_realized (selected_of_mem hrow) names name
  rw [Assembly.mem_references, List.find?_map, hfind, Option.map_map]
  simp only [Function.comp_def, Row.line_realized]

/-- The names that are kept are those of the relocations. -/
theorem name_mem_references_rows {name : String} (names : SymbolTable) :
    name ∈ (Assembly.references
        ((ofLines settings lines).rows.map (·.realized settings.isa names))).map (·.2) ↔
      name ∈ ((ofLines settings lines).rows.filterMap
        (·.relocation? settings.isa names)).map (·.symbol) := by
  constructor
  · rintro hmem
    obtain ⟨⟨n, _⟩, hentry, rfl⟩ := List.mem_map.1 hmem
    obtain ⟨row, hfirst, -⟩ := Option.map_eq_some_iff.1 ((mem_references_rows names).1 hentry)
    have hrefers := List.find?_some hfirst
    obtain ⟨r, hr, hsymbol⟩ := (Option.any_eq_true _ _).1 hrefers
    exact List.mem_map.2 ⟨r, List.mem_filterMap.2 ⟨row, List.mem_of_find?_eq_some hfirst, hr⟩,
      of_decide_eq_true hsymbol⟩
  · rintro hmem
    obtain ⟨r, hr, rfl⟩ := List.mem_map.1 hmem
    obtain ⟨row, hrow, hreloc⟩ := List.mem_filterMap.1 hr
    have hrefers : row.refersTo settings.isa names r.symbol = true := by
      simp [Row.refersTo, hreloc]
    obtain ⟨first, hfirst⟩ := Option.isSome_iff_exists.1 (List.find?_isSome.2 ⟨row, hrow, hrefers⟩)
    refine List.mem_map.2 ⟨(first.line.number, r.symbol), (mem_references_rows names).2 ?_, rfl⟩
    rw [hfirst]
    rfl

/-- A name that a relocation waits for has no address, so only an export declares it. -/
theorem isDeclared_iff_exported {name : String}
    (h : name ∈ ((ofLines settings lines).rows.filterMap
      (·.relocation? settings.isa (ofLines settings lines).names)).map (·.symbol)) :
    Assembly.isDeclared (ofLines settings lines).names name = true ↔
      ∃ row ∈ (ofLines settings lines).rows, row.plan = .directive (.global name) := by
  obtain ⟨r, hr, rfl⟩ := List.mem_map.1 h
  obtain ⟨row, -, hrow⟩ := List.mem_filterMap.1 hr
  rw [Assembly.isDeclared_of_address? (Row.address?_relocation? hrow)]
  exact exports_ofLines settings r.symbol lines

/-- The names that are kept and not declared are those of the relocations that are not exported. -/
theorem name_mem_undeclared {name : String} :
    name ∈ ((Assembly.references ((ofLines settings lines).rows.map
        (·.realized settings.isa (ofLines settings lines).names))).filter
          fun entry => !Assembly.isDeclared (ofLines settings lines).names entry.2).map (·.2) ↔
      name ∈ ((ofLines settings lines).rows.filterMap
        (·.relocation? settings.isa (ofLines settings lines).names)).map (·.symbol) ∧
      ∀ row ∈ (ofLines settings lines).rows, row.plan ≠ .directive (.global name) := by
  constructor
  · rintro hmem
    obtain ⟨entry, hentry, rfl⟩ := List.mem_map.1 hmem
    obtain ⟨hreference, hundeclared⟩ := List.mem_filter.1 hentry
    have hname := (name_mem_references_rows _).1 (List.mem_map_of_mem hreference)
    refine ⟨hname, fun row hrow hplan => ?_⟩
    have hdeclared := (isDeclared_iff_exported hname).2 ⟨row, hrow, hplan⟩
    simp [hdeclared] at hundeclared
  · rintro ⟨hname, hplain⟩
    have hundeclared : Assembly.isDeclared (ofLines settings lines).names name = false := by
      rw [← Bool.not_eq_true, isDeclared_iff_exported hname]
      rintro ⟨row, hrow, hplan⟩
      exact hplain row hrow hplan
    obtain ⟨entry, hentry, rfl⟩ := List.mem_map.1 ((name_mem_references_rows _).2 hname)
    exact List.mem_map_of_mem (List.mem_filter.2 ⟨hentry, by simp [hundeclared]⟩)

end Listing

/-- Undeclared names are reported exactly: the names that relocations wait for and no directive
exports, each once and with the first line that waits for it. No relocation waits for a name that
has an address. -/
theorem undeclared_assemble (source : String) (settings : Settings) :
    let l := Listing.ofLines settings (Source.read source).lines
    ∃ a, assemble source settings = .ok a ∧
      l.rows.map (·.line) = (Source.read source).lines ∧
      a.module.relocations = l.rows.filterMap (·.relocation? settings.isa a.module.symbols) ∧
      (a.undeclared.map (·.2)).Nodup ∧
      (∀ name, name ∈ a.undeclared.map (·.2) ↔
        name ∈ a.module.relocations.map (·.symbol) ∧
          ∀ row ∈ l.rows, row.plan ≠ .directive (.global name)) ∧
      (∀ n name, (n, name) ∈ a.undeclared →
        (l.rows.find? (·.refersTo settings.isa a.module.symbols name)).map (·.line.number) =
          some n) ∧
      ∀ r ∈ a.module.relocations, a.module.symbols.address? r.symbol = none := by
  intro l
  obtain ⟨a, ha⟩ := exists_assembly source settings
  have hmodule : a.module = l.module settings := module_assemble ha
  have hperm := Assembly.undeclared_perm (l := l) rfl ha
  have hrelocations : a.module.relocations =
      l.rows.filterMap (·.relocation? settings.isa a.module.symbols) := by
    rw [hmodule]
    exact Listing.relocations_module settings _
  have hsymbols : a.module.symbols = l.names := by rw [hmodule]; rfl
  have haddress : ∀ r ∈ a.module.relocations, a.module.symbols.address? r.symbol = none := by
    intro r hr
    rw [hrelocations] at hr
    obtain ⟨row, -, hrow⟩ := List.mem_filterMap.1 hr
    exact Row.address?_relocation? hrow
  refine ⟨a, ha, Listing.map_line_rows settings _, hrelocations, ?_, ?_, ?_, haddress⟩
  · refine (hperm.map _).nodup_iff.2 ?_
    exact (Assembly.nodup_references _).sublist (List.filter_sublist.map _)
  · intro name
    rw [(hperm.map _).mem_iff, hrelocations, hsymbols]
    exact Listing.name_mem_undeclared
  · intro n name hmem
    obtain ⟨hreference, -⟩ := List.mem_filter.1 (hperm.mem_iff.1 hmem)
    rw [hsymbols]
    exact (Listing.mem_references_rows _).1 hreference

/-- Of two names that are waited for, `far` in two lines, the one that is exported later is left
out. -/
theorem far_undeclared_once :
    ∃ a, assemble "b far\nj ext\nb far\n.globl ext" {} = .ok a ∧
      a.undeclared = [(1, "far")] ∧ "far" ∈ a.module.relocations.map (·.symbol) ∧
      "ext" ∈ a.module.relocations.map (·.symbol) := by
  obtain ⟨a, ha, -, -, -, hnames, -, -⟩ :=
    undeclared_assemble "b far\nj ext\nb far\n.globl ext" {}
  have hgiven : (assemble "b far\nj ext\nb far\n.globl ext" {}).toOption.map
      (fun a => (a.undeclared, a.module.relocations.map (·.symbol))) =
      some ([(1, "far")], ["far", "ext", "far"]) := by decide +kernel
  rw [ha] at hgiven
  obtain ⟨hundeclared, hsymbols⟩ := Prod.mk.inj (Option.some.inj hgiven)
  have hfar := (hnames "far").1 (by rw [hundeclared]; exact List.mem_singleton_self _)
  exact ⟨a, ha, hundeclared, hfar.1, by rw [hsymbols]; simp⟩

end Mips
