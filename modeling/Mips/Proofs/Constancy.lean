import Mips.Proofs.Evaluation
import Mips.Proofs.Report

/-!
# What the first pass fixes stays right

Constants and the arguments of directives are worked out where they stand, with the names that are
known there. By the end of the source more names are known, but none has another address, so working
them out again gives the same values. What was not known in time is not used at all: a constant is
then not bound, and a data directive leaves the value out.

    k = 3              k is 3
    .byte k, later     3; later is not known and is left out
    later:             3, and later is known
-/

namespace Mips

/-! ### Directives with numbers -/

namespace Directive

/-- The directives whose arguments are numbers. -/
def numeric : List String := ["align", "space", "word", "half", "byte"]

/-- The arguments that have a value, each with its value. -/
def values (symbols : SymbolTable) (address : Word) (args : List (List Token)) :
    List (List Token × Word) :=
  args.filterMap fun arg =>
    match Expr.evalTokens symbols address arg with
    | .ok (some v) => some (arg, v)
    | _ => none

/-- The directive that is made of values. -/
def ofValues : String → List Word → Option Directive
  | "align", [v] => some (.align v)
  | "space", [v] => some (.reserve v.toNat)
  | "word", vs => some (.data (vs.flatMap (valueBytes 4)))
  | "half", vs => some (.data (vs.flatMap (valueBytes 2)))
  | "byte", vs => some (.data (vs.flatMap (valueBytes 1)))
  | _, _ => none

variable {symbols : SymbolTable} {address : Word}

theorem mem_values {args : List (List Token)} {arg : List Token} {v : Word} :
    (arg, v) ∈ values symbols address args ↔
      arg ∈ args ∧ Expr.evalTokens symbols address arg = .ok (some v) := by
  rw [values, List.mem_filterMap]
  constructor
  · rintro ⟨arg', hmem, hvalue⟩
    split at hvalue
    · next v' heval =>
      obtain ⟨rfl, rfl⟩ := Prod.mk.inj (Option.some.inj hvalue)
      exact ⟨hmem, heval⟩
    · simp at hvalue
  · rintro ⟨hmem, heval⟩
    exact ⟨arg, hmem, by rw [heval]⟩

/-- The bytes of a data directive are those of the values that are known. -/
theorem flatMap_dataValue (name : String) (width : Nat) (args : List (List Token)) :
    (args.map (dataValue symbols address name width)).flatMap (·.1) =
      ((values symbols address args).map Prod.snd).flatMap (valueBytes width) := by
  induction args with
  | nil => rfl
  | cons arg rest ih =>
    rw [List.map_cons, List.flatMap_cons, ih]
    unfold dataValue values
    rw [List.filterMap_cons]
    rcases Expr.evalTokens symbols address arg with e | _ | v
    · rfl
    · rfl
    · rfl

theorem exists_of_single {name : String} {args : List (List Token)} {d : Directive}
    {make : List Token → Except Problem Directive} (h : (single name args make).1 = some d) :
    ∃ arg, args = [arg] ∧ make arg = .ok d := by
  unfold single at h
  split at h
  · next arg =>
    cases hmake : make arg with
    | ok d' =>
      rw [hmake] at h
      exact ⟨arg, rfl, by rw [hmake, Option.some.inj h]⟩
    | error problem => simp [hmake] at h
  · simp at h

/-- A directive with one number has a value for it. -/
theorem values_of_single {name : String} {args : List (List Token)} {d : Directive}
    {make : Word → Except Problem Directive}
    (h : (single name args fun arg => known symbols address name arg >>= make).1 = some d) :
    ∃ v, (values symbols address args).map Prod.snd = [v] ∧ make v = .ok d := by
  obtain ⟨arg, rfl, hmake⟩ := exists_of_single h
  cases heval : Expr.evalTokens symbols address arg with
  | error e => simp [known, heval, bind, Except.bind] at hmake
  | ok v =>
    cases v with
    | none => simp [known, heval, bind, Except.bind] at hmake
    | some v =>
      refine ⟨v, by simp [values, heval], ?_⟩
      simpa only [known, heval, bind, Except.bind] using hmake

theorem of_alignTo {v : Word} {d : Directive} (h : alignTo v = .ok d) : d = .align v := by
  unfold alignTo at h
  split at h
  · simp at h
  · split at h
    · simp at h
    · exact (Except.ok.inj h).symm

theorem of_reserveBytes {v : Word} {d : Directive} (h : reserveBytes v = .ok d) :
    d = .reserve v.toNat := by
  unfold reserveBytes at h
  split at h
  · simp at h
  · exact (Except.ok.inj h).symm

/-- A directive with numbers is made of the values that are known where it stands. -/
theorem ofValues_of_read {name : String} {tokens : List Token} {d : Directive}
    (hname : name ∈ numeric) (h : (read symbols address name tokens).1 = some d) :
    ofValues name ((values symbols address (Line.splitArgs tokens)).map Prod.snd) = some d := by
  have hdata : ∀ width, (if (Line.splitArgs tokens).isEmpty then (none, [.noValue name])
      else ofParts ((Line.splitArgs tokens).map
        (dataValue symbols address name width))).1 = some d →
      some (.data (((values symbols address (Line.splitArgs tokens)).map Prod.snd).flatMap
        (valueBytes width))) = some d := by
    intro width hread
    split at hread
    · simp at hread
    · rw [← flatMap_dataValue name width]
      exact hread
  simp only [numeric, List.mem_cons, List.not_mem_nil, or_false] at hname
  rcases hname with rfl | rfl | rfl | rfl | rfl
  · obtain ⟨v, hv, hmake⟩ := values_of_single h
    rw [hv, of_alignTo hmake]
    rfl
  · obtain ⟨v, hv, hmake⟩ := values_of_single h
    rw [hv, of_reserveBytes hmake]
    rfl
  · exact hdata 4 h
  · exact hdata 2 h
  · exact hdata 1 h

end Directive

/-! ### Constants -/

/-- Whether a problem is about the label of a line. -/
def Problem.blamesLabel : Problem → Bool
  | .illegalLabel _ | .duplicate .label _ _ => true
  | _ => false

theorem Problem.blamesLabel_of_refusesConstant {problem : Problem}
    (h : problem.refusesConstant = true) : problem.blamesLabel = false := by
  cases problem with
  | illegalLabel name => simp [refusesConstant] at h
  | duplicate definition name cause =>
    cases definition with
    | label => simp [refusesConstant] at h
    | constant => rfl
  | _ => rfl

namespace Layout

/-- A constant is bound, or something is wrong with it. -/
theorem bindConstant_cases (image : Image) (name : String) (value : List Token) :
    (∃ v symbols, Expr.evalTokens image.symbols image.address value = .ok (some v) ∧
      image.symbols.define name v none = .ok symbols ∧
      bindConstant image name value =
        { image := { image with symbols }, bound := some (name, v) }) ∨
    ∃ problem, problem.blamesLabel = false ∧
      bindConstant image name value = { image, problems := [problem] } := by
  rcases bindConstant_eq image name value with hbound | ⟨problem, hrefuses, hbind⟩
  · exact Or.inl hbound
  · exact Or.inr ⟨problem, Problem.blamesLabel_of_refusesConstant hrefuses, hbind⟩

/-- Only a constant is bound, to its value. -/
theorem bound_placeStatement {isa : Isa} {image : Image} {statement : Option Statement}
    {name : String} {v : Word} (h : (placeStatement isa image statement).bound = some (name, v)) :
    ∃ value, statement = some (.constant name value) ∧
      Expr.evalTokens image.symbols image.address value = .ok (some v) ∧
      (placeStatement isa image statement).image.symbols.address? name = some v := by
  rcases statement with _ | ⟨name', args⟩ | ⟨name', args⟩ | ⟨name', value⟩
  · simp [placeStatement] at h
  · simp only [placeStatement, placeInstruction] at h
    split at h
    · simp at h
    · split at h <;> simp at h
  · simp only [placeStatement, placeDirective] at h
    split at h
    · simp at h
    · split at h <;> simp at h
  · simp only [placeStatement] at h ⊢
    rcases bindConstant_cases image name' value with
      ⟨v', symbols, heval, hdefine, hbind⟩ | ⟨problem, -, hbind⟩
    · rw [hbind] at h ⊢
      obtain ⟨rfl, rfl⟩ := Prod.mk.inj (Option.some.inj h)
      exact ⟨value, rfl, heval, SymbolTable.address?_define hdefine⟩
    · rw [hbind] at h
      simp at h

/-- The directive of a plan was read from the statement. -/
theorem directive_placeStatement {isa : Isa} {image : Image} {statement : Option Statement}
    {d : Directive} (h : (placeStatement isa image statement).plan = .directive d) :
    ∃ name tokens, statement = some (.directive name tokens) ∧
      (Directive.read image.symbols image.address name tokens).1 = some d := by
  rcases statement with _ | ⟨name, args⟩ | ⟨name, args⟩ | ⟨name, value⟩
  · simp [placeStatement] at h
  · simp only [placeStatement, placeInstruction] at h
    split at h
    · simp at h
    · split at h <;> simp at h
  · simp only [placeStatement, placeDirective] at h
    split at h
    · simp at h
    · next d' problems hread =>
      split at h
      · obtain rfl := Plan.directive.inj h
        exact ⟨name, args, rfl, by rw [hread]⟩
      · simp at h
  · simp only [placeStatement] at h
    rcases bindConstant_cases image name value with ⟨v, symbols, -, -, hbind⟩ | ⟨problem, -, hbind⟩
    · simp [hbind] at h
    · simp [hbind] at h

/-! ### Names behind a line -/

open SymbolTable

theorem grows_imageOf (settings : Settings) (before after : List Line) :
    Grows (imageOf settings before).symbols (imageOf settings (before ++ after)).symbols := by
  rw [imageOf_eq, imageOf_eq, Listing.ofLines_append]
  exact Listing.grows_foldl settings after _

/-- What a statement can use stays known. -/
theorem grows_bindLabel (settings : Settings) (before : List Line) (line : Line)
    (after : List Line) :
    Grows (bindLabel (imageOf settings before) line.label).1.symbols
      (imageOf settings (before ++ line :: after)).symbols := by
  have hknown : (bindLabel (imageOf settings before) line.label).1.symbols =
      (Listing.ofLines settings before).known settings line := by
    rw [bindLabel_fst, imageOf_eq, Listing.address_image]
    rfl
  rw [hknown, imageOf_eq, Listing.ofLines_append, List.foldl_cons]
  refine Grows.trans ?_ (Listing.grows_foldl settings after _)
  exact Listing.grows_namesAfter ..

theorem address_bindLabel (image : Image) (label : Option String) :
    (bindLabel image label).1.address = image.address := by
  rw [bindLabel_fst]
  rfl

end Layout

/-! ### The whole source -/

/-- What the first pass fixed for a line is what it would fix at the end of the source: `names` are
known at the line, and `final` at the end. -/
structure Placed.Lasting (names final : SymbolTable) (p : Placed) : Prop where
  /-- A constant keeps the value that its tokens have. -/
  constant : ∀ name v, p.bound = some (name, v) →
    ∃ value, p.line.statement = some (.constant name value) ∧
      Expr.evalTokens final p.address value = .ok (some v) ∧ final.address? name = some v
  /-- A directive with numbers is made of values that their arguments keep. -/
  argument : ∀ name tokens d, p.line.statement = some (.directive name tokens) →
    name ∈ Directive.numeric → (Directive.read names p.address name tokens).1 = some d →
    let used := Directive.values names p.address (Line.splitArgs tokens)
    Directive.ofValues name (used.map Prod.snd) = some d ∧
      ∀ x ∈ used, Expr.evalTokens final p.address x.1 = .ok (some x.2)

theorem Layout.lasting_placedAfter (settings : Settings) (before : List Line) (line : Line)
    (after : List Line) :
    (placedAfter settings before line).Lasting
      (bindLabel (imageOf settings before) line.label).1.symbols
      (imageOf settings (before ++ line :: after)).symbols := by
  have hgrows := grows_bindLabel settings before line after
  have haddress := address_bindLabel (imageOf settings before) line.label
  refine ⟨?_, ?_⟩
  · intro name v hbound
    rw [placedAfter, placeLine_eq] at hbound
    obtain ⟨value, hstatement, heval, hname⟩ := bound_placeStatement hbound
    rw [haddress] at heval
    refine ⟨value, hstatement, Expr.evalTokens_of_grows hgrows heval, ?_⟩
    -- behind the line the constant is known, and it stays so
    have hbehind := grows_imageOf settings (before ++ [line]) after
    rw [List.append_assoc, List.singleton_append] at hbehind
    refine hbehind.address name v ?_
    rw [imageOf_append]
    exact hname
  · intro name tokens d hstatement hname hread used
    refine ⟨Directive.ofValues_of_read hname hread, ?_⟩
    rintro ⟨arg, v⟩ hused
    exact Expr.evalTokens_of_grows hgrows (Directive.mem_values.1 hused).2

/-- Constants and arguments that the first pass used have the same values at the end. A constant is
bound unless something other than its label is wrong with the line, and every directive that was
executed was read with the names that were known there. -/
theorem constants_assemble (source : String) (settings : Settings) :
    let placed := (Layout.placeLines settings.isa (.start settings) (Source.read source).lines).2
    ∃ a, assemble source settings = .ok a ∧
      ∀ first p rest, placed = first ++ p :: rest →
        let image :=
          (Layout.bindLabel (Layout.imageOf settings (first.map (·.line))) p.line.label).1
        p.Lasting image.symbols a.module.symbols ∧
        (∀ name value, p.line.statement = some (.constant name value) →
          (∀ problem ∈ a.problemsAt p.line.number, problem.blamesLabel = true) →
          ∃ v, p.bound = some (name, v)) ∧
        ∀ d, p.plan = .directive d → ∃ name tokens,
          p.line.statement = some (.directive name tokens) ∧
          (Directive.read image.symbols p.address name tokens).1 = some d := by
  intro placed
  obtain ⟨a, hassemble⟩ := exists_assembly source settings
  refine ⟨a, hassemble, ?_⟩
  intro first p rest hsplit image
  obtain ⟨hlines, hp⟩ := Layout.placed_of_split settings hsplit
  have hfinal : a.module.symbols =
      (Layout.imageOf settings (Source.read source).lines).symbols := by
    rw [module_assemble hassemble, Layout.imageOf_eq]
    rfl
  have haddress : p.address = image.address := by
    rw [hp]
    exact (Layout.address_bindLabel ..).symm
  refine ⟨?_, ?_, ?_⟩
  · rw [hfinal, hlines, hp]
    exact Layout.lasting_placedAfter settings ..
  · intro name value hstatement hproblems
    obtain ⟨text, undefined, -, -, hreported⟩ := problemsAt_assemble hassemble hlines
    have hstep : p.bound = (Layout.bindConstant image name value).bound ∧
        p.problems = (Layout.bindLabel (Layout.imageOf settings (first.map (·.line)))
          p.line.label).2 ++ (Layout.bindConstant image name value).problems := by
      rw [hp, Layout.placedAfter, Layout.placeLine_eq, hstatement]
      exact ⟨rfl, rfl⟩
    rcases Layout.bindConstant_cases image name value with
      ⟨v, symbols, -, -, hbind⟩ | ⟨problem, hblames, hbind⟩
    · exact ⟨v, by rw [hstep.1, hbind]⟩
    · have hmem : problem ∈ a.problemsAt p.line.number := by
        rw [hreported, ← hp, hstep.2, hbind]
        simp
      rw [hproblems problem hmem] at hblames
      simp at hblames
  · intro d hplan
    rw [haddress]
    rw [hp, Layout.placedAfter, Layout.placeLine_eq] at hplan
    exact Layout.directive_placeStatement hplan

/-- A value that is known only behind a directive is left out of it, and the one that was used there
is still the same at the end. -/
theorem later_value_left_out :
    let source := "k = 3\n.byte k, later\nlater:"
    ∃ (a : Assembly) (constant data last : Placed), assemble source {} = .ok a ∧
      (Layout.placeLines .mips32 (.start {}) (Source.read source).lines).2 =
        [constant, data, last] ∧
      constant.bound = some ("k", 3) ∧ a.module.symbols.address? "k" = some 3 ∧
      data.plan = .directive (.data [3]) ∧
      Expr.evalTokens a.module.symbols data.address [⟨.name "k", "k"⟩] = .ok (some 3) ∧
      a.module.symbols.address? "later" = some 0x400001 := by
  intro source
  let constant : Placed :=
    ⟨⟨1, none, some (.constant "k" [⟨.number 3, "3"⟩])⟩, .text, 0x400000, .nothing, [],
      some ("k", 3)⟩
  let data : Placed :=
    ⟨⟨2, none, some (.directive "byte" [⟨.name "k", "k"⟩, ⟨.comma, ","⟩, ⟨.name "later", "later"⟩])⟩,
      .text, 0x400000, .directive (.data [3]), [.valueNotKnown "byte"], none⟩
  let last : Placed := ⟨⟨3, some "later", none⟩, .text, 0x400001, .nothing, [], none⟩
  have hplaced : (Layout.placeLines .mips32 (.start {}) (Source.read source).lines).2 =
      [constant, data, last] := by decide +kernel
  obtain ⟨a, ha, hlines⟩ := constants_assemble source {}
  have hfacts : (assemble source {}).toOption.map (fun a =>
      (a.problemsAt 1, a.module.symbols.address? "later")) = some ([], some 0x400001) := by
    decide +kernel
  rw [ha] at hfacts
  obtain ⟨hclean, hlater⟩ := Prod.mk.inj (Option.some.inj hfacts)
  obtain ⟨hconstant, hbinds, -⟩ := hlines [] constant [data, last] hplaced
  obtain ⟨hdata, -, -⟩ := hlines [constant] data [last] hplaced
  obtain ⟨v, hbound⟩ := hbinds "k" _ rfl (by
    intro problem hmem
    rw [show constant.line.number = 1 from rfl, hclean] at hmem
    simp at hmem)
  obtain ⟨value, -, -, hk⟩ := hconstant.constant "k" v hbound
  obtain rfl : 3 = v := (Prod.mk.inj (Option.some.inj hbound)).2
  obtain ⟨-, hused⟩ := hdata.argument "byte" _ (.data [3]) rfl (by decide) (by decide +kernel)
  exact ⟨a, constant, data, last, ha, hplaced, hbound, hk, rfl,
    hused ([⟨.name "k", "k"⟩], 3) (by decide +kernel), hlater⟩

end Mips
