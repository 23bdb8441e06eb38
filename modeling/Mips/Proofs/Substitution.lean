import Mathlib.Data.List.Forall2
import Mips.Proofs.Grammar
import Mips.Proofs.Inline
import Mips.Proofs.Report

/-!
# A constant is the number it stands for

A name that the finished symbol table gives an address and no section has the value of that address
in every operand, as the number itself has, and neither counts as a label. So a source and the one
with the number written for the name (`Source.inline`) are assembled to the same module. What is
reported may name other texts, but it is of the same class under the same line.

    source ──────▶ lines ──▶ places ──▶ operands ──▶ bytes, relocations
       │ inline      │ Line.Inlines        │ Expr.Inlines      ║
       ▼             ▼                     ▼                   ║
    source' ─────▶ lines' ─▶ places ──▶ operands' ─▶ bytes, relocations

The first pass asks an instruction only for its mnemonic and the number of its operands, and both
passes read the same names; where the constant is defined does not matter.
-/

namespace Mips

/-- Two results are errors of one class, or values that are alike. -/
inductive Alike {ε κ α : Type} (kind : ε → κ) (R : α → α → Prop) :
    Except ε α → Except ε α → Prop where
  | error {e e' : ε} (h : kind e = kind e') : Alike kind R (.error e) (.error e')
  | ok {x x' : α} (h : R x x') : Alike kind R (.ok x) (.ok x')

namespace Alike

variable {ε κ α β : Type} {kind : ε → κ} {R : α → α → Prop} {r r' : Except ε α}

theorem refl (r : Except ε α) : Alike kind Eq r r := by
  cases r with
  | error e => exact .error rfl
  | ok x => exact .ok rfl

theorem cases (h : Alike kind R r r') :
    (∃ e e', r = .error e ∧ r' = .error e' ∧ kind e = kind e') ∨
      ∃ x x', r = .ok x ∧ r' = .ok x' ∧ R x x' := by
  cases h with
  | error h => exact Or.inl ⟨_, _, rfl, rfl, h⟩
  | ok h => exact Or.inr ⟨_, _, rfl, rfl, h⟩

theorem map (f : α → β) (h : Alike kind Eq r r') : Alike kind Eq (r.map f) (r'.map f) := by
  cases h with
  | error h => exact .error h
  | ok h => exact .ok (congrArg f h)

end Alike

namespace SymbolTable

/-- The name has the given address and no section. -/
def IsConstant (t : SymbolTable) (name : String) (v : Word) : Prop :=
  ∃ s, t.get? name = some s ∧ s.address = some v ∧ s.home = none

variable {t : SymbolTable} {name : String} {v : Word}

theorem IsConstant.address? (h : t.IsConstant name v) : t.address? name = some v := by
  obtain ⟨s, hget, haddress, -⟩ := h
  simp [SymbolTable.address?, hget, haddress]

theorem IsConstant.isLabel (h : t.IsConstant name v) : t.isLabel name = false := by
  obtain ⟨s, hget, -, hhome⟩ := h
  simp [SymbolTable.isLabel, hget, hhome]

end SymbolTable

/-! ### Tokens and lines -/

namespace Token

/-- A token is kept, or it is the name and the number stands for it. -/
inductive Inlines (name : String) (v : Word) : Token → Token → Prop where
  | kept (t : Token) : Inlines name v t t
  | number (text text' : String) : Inlines name v ⟨.name name, text⟩ ⟨.number v, text'⟩

theorem inlines_inlined (name : String) (v : Word) (pick : Nat → Bool) (tokens : List Token) :
    List.Forall₂ (Inlines name v) tokens (inlined name v pick tokens) := by
  induction tokens generalizing pick with
  | nil => exact .nil
  | cons t rest ih =>
    refine .cons ?_ (ih _)
    split
    · next hpicked =>
      obtain ⟨kind, text⟩ := t
      obtain ⟨rfl, -⟩ := hpicked
      exact .number text _
    · exact .kept t

end Token

namespace Line

/-- A line is kept, or it has an instruction with the number for some of its operands. -/
inductive Inlines (name : String) (v : Word) : Line → Line → Prop where
  | kept (line : Line) : Inlines name v line line
  | instruction (n : Nat) (label : Option String) (m : String) {args args' : List Token}
    (h : List.Forall₂ (Token.Inlines name v) args args') :
    Inlines name v ⟨n, label, some (.instruction m args)⟩ ⟨n, label, some (.instruction m args')⟩

theorem inlines_inlined (name : String) (v : Word) (pick : Nat → Bool) (line : Line) :
    line.Inlines name v (line.inlined name v pick) := by
  obtain ⟨n, label, statement⟩ := line
  unfold inlined
  split
  · next m args hstatement =>
    obtain rfl : statement = some (.instruction m args) := hstatement
    exact .instruction n label m (Token.inlines_inlined name v _ args)
  · exact .kept _

end Line

section

variable {name : String} {v : Word}

/-! ### Expressions -/

/-- The class of a problem with an expression. -/
def ExprError.kind (e : ExprError) : ProblemKind := (Problem.expression e).kind

namespace Expr

/-- An expression has the number for some of the names. -/
inductive Inlines (name : String) (v : Word) : Expr → Expr → Prop where
  | kept (e : Expr) : Inlines name v e e
  | number : Inlines name v (.symbol name) (.number v)
  | binary (op : Operator) {lhs lhs' rhs rhs' : Expr} (hlhs : Inlines name v lhs lhs')
    (hrhs : Inlines name v rhs rhs') : Inlines name v (.binary op lhs rhs) (.binary op lhs' rhs')

section

variable {R : Token → Token → Prop} {S : Expr → Expr → Prop}
  (hR : ∀ {t' t : Token}, R t' t → t'.kind = t.kind ∨
    ∃ e' e, leaf? t'.kind = some e' ∧ leaf? t.kind = some e ∧ S e' e)
  (hkept : ∀ e, S e e)
  (hbinary : ∀ (op : Operator) {lhs' lhs rhs' rhs : Expr}, S lhs' lhs → S rhs' rhs →
    S (.binary op lhs' rhs') (.binary op lhs rhs))

include hR hkept hbinary

/-- Tokens that are the same but for operands of one token are read on the same levels, and the
expressions are the same but for these operands. -/
theorem Derives.related {n : Nat} {ts' ts : List Token} {e : Expr} (h : Derives n ts e)
    (hts : List.Forall₂ R ts' ts) : ∃ e', Derives n ts' e' ∧ S e' e := by
  have hother : ∀ {t' t : Token}, R t' t → leaf? t.kind = none → t'.kind = t.kind := by
    intro t' t ht hnone
    rcases hR ht with hk | ⟨e', e, -, he, -⟩
    · exact hk
    · simp [hnone] at he
  have hleaf : ∀ {t : Token} {ts' : List Token} {e : Expr}, leaf? t.kind = some e →
      List.Forall₂ R ts' [t] → ∃ e', Derives 4 ts' e' ∧ S e' e := by
    intro t ts' e he hts
    obtain - | ⟨ht, ⟨⟩⟩ := hts
    rcases hR ht with hk | ⟨e', e₀, he', he₀, hS⟩
    · exact ⟨e, derives_leaf (hk ▸ he), hkept e⟩
    · obtain rfl : e = e₀ := Option.some.inj (he.symm.trans he₀)
      exact ⟨e', derives_leaf he', hS⟩
  induction h generalizing ts' with
  | number hk | string hk | symbol hk | here hk => exact hleaf (by rw [hk]; rfl) hts
  | negate hk _ ih =>
    obtain - | ⟨ht, hts⟩ := hts
    obtain ⟨e', he', hS⟩ := ih hts
    have hk' := (hother ht (by rw [hk]; rfl)).trans hk
    exact ⟨_, .negate hk' he', hbinary .sub (hkept _) hS⟩
  | @group t u ts e hkl hkr _ ih =>
    obtain - | @⟨t', _, rest, _, ht, hrest⟩ := hts
    have hinner := List.forall₂_take_append _ _ _ hrest
    have hlast := List.forall₂_drop_append _ _ _ hrest
    obtain ⟨e', he', hS⟩ := ih hinner
    rw [← List.take_append_drop ts.length rest]
    generalize rest.drop ts.length = last at hlast
    obtain - | ⟨hu, ⟨⟩⟩ := hlast
    have hkl' := (hother ht (by rw [hkl]; rfl)).trans hkl
    have hkr' := (hother hu (by rw [hkr]; rfl)).trans hkr
    exact ⟨e', .group hkl' hkr' he', hS⟩
  | @binary n t op ts us lhs rhs hop hk _ _ ihLhs ihRhs =>
    have hleft := List.forall₂_take_append _ _ _ hts
    have hright := List.forall₂_drop_append _ _ _ hts
    rw [← List.take_append_drop ts.length ts']
    generalize ts'.drop ts.length = right at hright
    obtain - | ⟨ht, hright⟩ := hright
    obtain ⟨lhs', hlhs, hSlhs⟩ := ihLhs hleft
    obtain ⟨rhs', hrhs, hSrhs⟩ := ihRhs hright
    have hk' := (hother ht (by rw [hk]; rfl)).trans hk
    exact ⟨_, .binary hop hk' hlhs hrhs, hbinary op hSlhs hSrhs⟩
  | tighter _ ih =>
    obtain ⟨e', he', hS⟩ := ih hts
    exact ⟨e', he'.tighter, hS⟩

end

/-- The same tokens but for the number are parsed to the same expression but for the number, or not
at all. -/
theorem alike_parse {tokens tokens' : List Token}
    (h : List.Forall₂ (Token.Inlines name v) tokens tokens') :
    Alike ExprError.kind (Inlines name v) (parse tokens) (parse tokens') := by
  have hback : ∀ {t t' : Token}, t.Inlines name v t' → t.kind = t'.kind ∨
      ∃ e e', leaf? t.kind = some e ∧ leaf? t'.kind = some e' ∧ Inlines name v e e' := by
    intro t t' ht
    cases ht with
    | kept => exact .inl rfl
    | number text text' => exact .inr ⟨_, _, rfl, rfl, .number⟩
  have hforth : ∀ {t' t : Token}, t.Inlines name v t' → t'.kind = t.kind ∨
      ∃ e' e, leaf? t'.kind = some e' ∧ leaf? t.kind = some e ∧ Inlines name v e e' := by
    intro t' t ht
    rcases hback ht with hk | ⟨e, e', he, he', hinlines⟩
    · exact .inl hk.symm
    · exact .inr ⟨e', e, he', he, hinlines⟩
  cases hparse : parse tokens with
  | ok e =>
    obtain ⟨e', he', hinlines⟩ := (derives_of_parse hparse).related hforth
      (S := fun e' e => Inlines name v e e') .kept (fun op _ _ _ _ => .binary op) h.flip
    rw [he'.parse]
    exact .ok hinlines
  | error cause =>
    cases hparse' : parse tokens' with
    | error cause' => exact .error ((kind_parse hparse).trans (kind_parse hparse').symm)
    | ok e' =>
      -- what is read with the number is read with the name as well
      obtain ⟨e, he, -⟩ := (derives_of_parse hparse').related hback .kept .binary h
      rw [he.parse] at hparse
      simp at hparse

section

variable {symbols : SymbolTable} (hname : symbols.IsConstant name v) {e e' : Expr}
  (h : e.Inlines name v e')

include hname h

theorem eval_inlines (address : Word) : e'.eval symbols address = e.eval symbols address := by
  induction h with
  | kept e => rfl
  | number => rw [eval, eval, hname.address?]
  | binary op hlhs hrhs ihLhs ihRhs => rw [eval, eval, ihLhs, ihRhs]

theorem hasLabel_inlines : e'.hasLabel symbols = e.hasLabel symbols := by
  induction h with
  | kept e => rfl
  | number => rw [hasLabel, hasLabel, hname.isLabel]
  | binary op hlhs hrhs ihLhs ihRhs => rw [hasLabel, hasLabel, ihLhs, ihRhs]

theorem unresolved?_inlines : e'.unresolved? symbols = e.unresolved? symbols := by
  induction h with
  | kept e => rfl
  | number => simp [unresolved?, hname.address?]
  | binary op hlhs hrhs ihLhs ihRhs => rw [unresolved?, unresolved?, ihLhs, ihRhs]

end

theorem alike_evalTokens {symbols : SymbolTable} (hname : symbols.IsConstant name v)
    (address : Word) {tokens tokens' : List Token}
    (h : List.Forall₂ (Token.Inlines name v) tokens tokens') :
    Alike ExprError.kind Eq (evalTokens symbols address tokens)
      (evalTokens symbols address tokens') := by
  unfold evalTokens
  rcases (alike_parse h).cases with ⟨e, e', hparse, hparse', hkind⟩ | ⟨e, e', hparse, hparse', he⟩
  · rw [hparse, hparse']
    exact .error hkind
  · rw [hparse, hparse']
    dsimp only
    rw [eval_inlines hname he]
    exact .refl _

end Expr

/-! ### Operands -/

namespace Line

theorem inlines_cutArgs {tokens tokens' : List Token}
    (h : List.Forall₂ (Token.Inlines name v) tokens tokens') :
    List.Forall₂ (List.Forall₂ (Token.Inlines name v)) (cutArgs tokens) (cutArgs tokens') := by
  induction h with
  | nil => exact .cons .nil .nil
  | @cons t t' rest rest' ht hrest ih =>
    have hcomma : t.kind = .comma ↔ t'.kind = .comma := by
      cases ht with
      | kept => exact Iff.rfl
      | number => simp
    rw [cutArgs_cons, cutArgs_cons]
    generalize cutArgs rest = args at ih
    generalize cutArgs rest' = args' at ih
    by_cases hk : t.kind = .comma
    · rw [if_pos hk, if_pos (hcomma.1 hk)]
      exact .cons .nil ih
    · rw [if_neg hk, if_neg (mt hcomma.2 hk)]
      cases ih with
      | nil => exact .cons (.cons ht .nil) .nil
      | cons harg hargs => exact .cons (.cons ht harg) hargs

/-- A number is no comma, so it stays in the argument of the name. -/
theorem inlines_splitArgs {tokens tokens' : List Token}
    (h : List.Forall₂ (Token.Inlines name v) tokens tokens') :
    List.Forall₂ (List.Forall₂ (Token.Inlines name v)) (splitArgs tokens) (splitArgs tokens') := by
  cases h with
  | nil => exact .nil
  | cons ht hrest => exact inlines_cutArgs (.cons ht hrest)

end Line

namespace Encoding

theorem alike_register {arg arg' : List Token}
    (h : List.Forall₂ (Token.Inlines name v) arg arg') :
    Alike Problem.kind Eq (register arg) (register arg') := by
  cases h with
  | nil => exact .error rfl
  | @cons t t' rest rest' ht hrest =>
    cases ht with
    | number text text' => exact .error rfl
    | kept =>
      cases hrest with
      | nil => exact .refl _
      | cons _ _ =>
        obtain ⟨kind, text⟩ := t
        cases kind with
        | _ => exact .error rfl

/-- The parts of an operand in memory end in a register, which is no name. -/
theorem inlines_memoryParts {arg arg' : List Token}
    (h : List.Forall₂ (Token.Inlines name v) arg arg') :
    Option.Rel (fun parts parts' => List.Forall₂ (Token.Inlines name v) parts.1 parts'.1 ∧
      parts.2 = parts'.2) (memoryParts arg) (memoryParts arg') := by
  have hreverse := List.forall₂_reverse_iff.2 h
  unfold memoryParts
  generalize arg.reverse = tokens at hreverse
  generalize arg'.reverse = tokens' at hreverse
  split
  · next register _ _ offset =>
    obtain - | ⟨⟨⟩, - | ⟨⟨⟩, - | ⟨⟨⟩, hoffset⟩⟩⟩ := hreverse
    dsimp only
    cases Register.ofName? register with
    | none => exact .none
    | some base => exact .some ⟨List.forall₂_reverse_iff.2 hoffset, rfl⟩
  · next hnot =>
    split
    · obtain - | ⟨⟨⟩, - | ⟨⟨⟩, - | ⟨⟨⟩, hoffset⟩⟩⟩ := hreverse
      exact absurd rfl (hnot _ _ _ _ _)
    · exact .none

variable {p : Place} (hname : p.symbols.IsConstant name v)

include hname

theorem alike_memory {arg arg' : List Token} (h : List.Forall₂ (Token.Inlines name v) arg arg') :
    Alike Problem.kind Eq (memory p arg) (memory p arg') := by
  have hparts := inlines_memoryParts h
  unfold memory
  generalize memoryParts arg = parts at hparts
  generalize memoryParts arg' = parts' at hparts
  cases hparts with
  | none => exact .error rfl
  | @some parts parts' hparts =>
    obtain ⟨offset, base⟩ := parts
    obtain ⟨offset', base'⟩ := parts'
    obtain ⟨hoffset, rfl⟩ := hparts
    cases hoffset with
    | nil => exact .refl _
    | cons ht hrest =>
      dsimp only
      rcases (Expr.alike_evalTokens hname p.address (.cons ht hrest)).cases with
        ⟨e, e', heval, heval', -⟩ | ⟨w, w', heval, heval', rfl⟩
      · rw [heval, heval']
        exact .error rfl
      · rw [heval, heval']
        cases w with
        | none => exact .error rfl
        | some w =>
          dsimp only
          split
          · exact .refl _
          · exact .error rfl

theorem alike_value {arg arg' : List Token} (h : List.Forall₂ (Token.Inlines name v) arg arg') :
    Alike Problem.kind (fun x x' => x.1.Inlines name v x'.1 ∧ x.2 = x'.2) (value p arg)
      (value p arg') := by
  unfold value
  rcases (Expr.alike_parse h).cases with
    ⟨e, e', hparse, hparse', hkind⟩ | ⟨e, e', hparse, hparse', he⟩
  · rw [hparse, hparse']
    exact .error hkind
  · rw [hparse, hparse']
    dsimp only
    rw [Expr.eval_inlines hname he]
    cases e.eval p.symbols p.address with
    | error cause => exact .error rfl
    | ok w => exact .ok ⟨he, rfl⟩

theorem awaiting_inlines {e e' : Expr} (he : e.Inlines name v e') (b : Bound) :
    b.awaiting p e' = b.awaiting p e := by
  rw [Bound.awaiting, Bound.awaiting, Expr.unresolved?_inlines hname he]

theorem alike_number {arg arg' : List Token} (h : List.Forall₂ (Token.Inlines name v) arg arg')
    (b : Bound) (field : Field) {adjust : Expr → Word → Word} (set : Operands → Word → Operands)
    (hadjust : ∀ e e', e.Inlines name v e' → adjust e' = adjust e) :
    Alike Problem.kind Eq (number p b arg field adjust set) (number p b arg' field adjust set) := by
  unfold number
  rcases (alike_value hname h).cases with
    ⟨q, q', hvalue, hvalue', hkind⟩ | ⟨⟨e, w⟩, ⟨e', w'⟩, hvalue, hvalue', he, hw⟩
  · rw [hvalue, hvalue']
    exact .error hkind
  · obtain rfl : w = w' := hw
    rw [hvalue, hvalue']
    cases w with
    | none =>
      dsimp only
      rw [awaiting_inlines hname he]
      exact .refl _
    | some w =>
      dsimp only
      rw [hadjust e e' he]
      exact .refl _

/-- An operand is bound to the same. A constant and its number are alike no label, so a branch takes
both as they are. -/
theorem alike_bindOperand {arg arg' : List Token}
    (h : List.Forall₂ (Token.Inlines name v) arg arg') (b : Bound) (kind : OperandKind) :
    Alike Problem.kind Eq (bindOperand p b kind arg) (bindOperand p b kind arg') := by
  have hbranch : ∀ e e', e.Inlines name v e' → branchOffset p e' = branchOffset p e := by
    intro e e' he
    funext w
    rw [branchOffset, branchOffset, Expr.hasLabel_inlines hname he]
  have hjump : ∀ e e', e.Inlines name v e' → jumpTarget p e' = jumpTarget p e := by
    intro e e' he
    funext w
    rw [jumpTarget, jumpTarget, Expr.hasLabel_inlines hname he]
  cases kind with
  | rd | rs | rt => exact (alike_register h).map _
  | shift | immediate => exact alike_number hname h b _ _ fun e e' _ => rfl
  | offset => exact alike_number hname h b _ _ hbranch
  | target => exact alike_number hname h b _ _ hjump
  | memory => exact (alike_memory hname h).map _
  | full =>
    unfold bindOperand
    rcases (alike_value hname h).cases with
      ⟨q, q', hvalue, hvalue', hkind⟩ | ⟨⟨e, w⟩, ⟨e', w'⟩, hvalue, hvalue', he, hw⟩
    · rw [hvalue, hvalue']
      exact .error hkind
    · obtain rfl : w = w' := hw
      rw [hvalue, hvalue']
      cases w with
      | none =>
        dsimp only
        rw [awaiting_inlines hname he]
        exact .refl _
      | some w => exact .refl _

theorem alike_bindAll {args args' : List (List Token)}
    (h : List.Forall₂ (List.Forall₂ (Token.Inlines name v)) args args') (kinds : List OperandKind)
    (b : Bound) :
    Alike (List.map Problem.kind) Eq (bindAll p b (kinds.zip args))
      (bindAll p b (kinds.zip args')) := by
  induction h generalizing kinds b with
  | nil =>
    rw [List.zip_nil_right]
    exact .refl _
  | cons harg hargs ih =>
    cases kinds with
    | nil => exact .refl _
    | cons kind kinds =>
      simp only [List.zip_cons_cons, bindAll]
      rcases (alike_bindOperand hname harg b kind).cases with
        ⟨q, q', hbind, hbind', hkind⟩ | ⟨next, next', hbind, hbind', rfl⟩
      · rw [hbind, hbind']
        exact .error (by simp [hkind])
      · rw [hbind, hbind']
        exact ih kinds next

omit hname in
/-- A statement has the same encoding, or problems of the same classes. -/
theorem alike_ofStatement {symbols : SymbolTable} (hname : symbols.IsConstant name v) (isa : Isa)
    (address : Word) (m : String) {tokens tokens' : List Token}
    (h : List.Forall₂ (Token.Inlines name v) tokens tokens') :
    Alike (List.map Problem.kind) Eq (ofStatement isa symbols address m tokens)
      (ofStatement isa symbols address m tokens') := by
  have hargs := Line.inlines_splitArgs h
  unfold ofStatement
  dsimp only
  rw [← hargs.length_eq]
  split
  · exact .refl _
  · next m hselect =>
    rcases (alike_bindAll (p := ⟨symbols, address, address + BitVec.ofNat 32 (4 * m.fieldIndex)⟩)
        hname hargs m.operands {}).cases with
      ⟨q, q', hbind, hbind', hkind⟩ | ⟨b, b', hbind, hbind', rfl⟩
    · rw [hbind, hbind']
      exact .error hkind
    · rw [hbind, hbind']
      exact .refl _

end Encoding

/-! ### Places -/

/-- What is left to do is the same, but for the number in the operands. -/
inductive Plan.Inlines (name : String) (v : Word) : Plan → Plan → Prop where
  | kept (plan : Plan) : Inlines name v plan plan
  | instruction (m : Mnemonic) {args args' : List Token}
    (h : List.Forall₂ (Token.Inlines name v) args args') :
    Inlines name v (.instruction m args) (.instruction m args')

/-- A row stands in the same place and has the number in its operands. -/
structure Row.Inlines (name : String) (v : Word) (row row' : Row) : Prop where
  number : row.line.number = row'.line.number
  place : row.place = row'.place
  address : row.address = row'.address
  plan : row.plan.Inlines name v row'.plan

/-- A line is placed alike, with the same problems. -/
structure Placed.Inlines (name : String) (v : Word) (p p' : Placed) : Prop where
  row : p.row.Inlines name v p'.row
  problems : p.problems = p'.problems

namespace Layout

/-- The first pass counts the operands and does not look into them. -/
theorem inlines_placeInstruction (isa : Isa) (image : Image) (m : String)
    {args args' : List Token} (h : List.Forall₂ (Token.Inlines name v) args args') :
    (placeInstruction isa image m args).image = (placeInstruction isa image m args').image ∧
      (placeInstruction isa image m args).plan.Inlines name v
        (placeInstruction isa image m args').plan ∧
      (placeInstruction isa image m args).problems =
        (placeInstruction isa image m args').problems := by
  unfold placeInstruction
  rw [← (Line.inlines_splitArgs h).length_eq]
  split
  · exact ⟨rfl, .kept _, rfl⟩
  · next m hselect =>
    split
    · exact ⟨rfl, .instruction m h, rfl⟩
    · exact ⟨rfl, .kept _, rfl⟩

theorem inlines_placeLine (isa : Isa) (image : Image) {line line' : Line}
    (h : line.Inlines name v line') :
    (placeLine isa image line).1 = (placeLine isa image line').1 ∧
      (placeLine isa image line).2.Inlines name v (placeLine isa image line').2 := by
  cases h with
  | kept => exact ⟨rfl, ⟨rfl, rfl, rfl, .kept _⟩, rfl⟩
  | instruction n label m hargs =>
    obtain ⟨himage, hplan, hproblems⟩ :=
      inlines_placeInstruction isa (bindLabel image label).1 m hargs
    rw [placeLine_eq, placeLine_eq]
    exact ⟨himage, ⟨rfl, rfl, rfl, hplan⟩, congrArg ((bindLabel image label).2 ++ ·) hproblems⟩

theorem inlines_placeLines (isa : Isa) {lines lines' : List Line}
    (h : List.Forall₂ (Line.Inlines name v) lines lines') (image : Image) :
    (placeLines isa image lines).1 = (placeLines isa image lines').1 ∧
      List.Forall₂ (Placed.Inlines name v) (placeLines isa image lines).2
        (placeLines isa image lines').2 := by
  induction h generalizing image with
  | nil => exact ⟨rfl, .nil⟩
  | @cons line line' lines lines' hline hlines ih =>
    obtain ⟨himage, hplaced⟩ := inlines_placeLine isa image hline
    obtain ⟨hlast, hrest⟩ := ih (placeLine isa image line).1
    simp only [placeLines]
    rw [← himage]
    exact ⟨hlast, .cons hplaced hrest⟩

end Layout

/-- The listings have the same names, and their rows stand in the same places. -/
theorem Listing.inlines_ofLines (settings : Settings) {lines lines' : List Line}
    (h : List.Forall₂ (Line.Inlines name v) lines lines') :
    (ofLines settings lines).names = (ofLines settings lines').names ∧
      List.Forall₂ (Row.Inlines name v) (ofLines settings lines).rows
        (ofLines settings lines').rows := by
  obtain ⟨himage, hplaced⟩ := Layout.inlines_placeLines settings.isa h (.start settings)
  obtain ⟨hstart, hrows⟩ := placeLines_start settings lines
  obtain ⟨hstart', hrows'⟩ := placeLines_start settings lines'
  rw [hstart, hstart'] at himage
  rw [← hrows, ← hrows', List.forall₂_map_left_iff, List.forall₂_map_right_iff]
  exact ⟨congrArg (·.symbols) himage, hplaced.imp fun _ _ hp => hp.row⟩

/-! ### Bytes and reports -/

/-- What a diagnostic says without its text: the line, how bad it is and of which class. -/
def Diagnostic.summary (d : Diagnostic) : Nat × Severity × ProblemKind :=
  (d.line, d.problem.severity, d.problem.kind)

/-- Two diagnostics are of one class and under one line. -/
def Diagnostic.Like (d d' : Diagnostic) : Prop := d.summary = d'.summary

namespace Diagnostic

theorem like_of_kind {n : Nat} {problem problem' : Problem} (h : problem.kind = problem'.kind) :
    Like ⟨n, problem⟩ ⟨n, problem'⟩ := by
  simp only [Like, summary, Problem.severity, h]

theorem like_map_of_kind {n : Nat} {problems problems' : List Problem}
    (h : problems.map Problem.kind = problems'.map Problem.kind) :
    List.Forall₂ Like (problems.map (⟨n, ·⟩)) (problems'.map (⟨n, ·⟩)) := by
  rw [← List.forall₂_eq_eq_eq, List.forall₂_map_left_iff, List.forall₂_map_right_iff] at h
  rw [List.forall₂_map_left_iff, List.forall₂_map_right_iff]
  exact h.imp fun _ _ => like_of_kind

theorem like_insert {d d' : Diagnostic} (hd : d.Like d') {ds ds' : List Diagnostic}
    (h : List.Forall₂ Like ds ds') : List.Forall₂ Like (insert d ds) (insert d' ds') := by
  have hline : ∀ {x x' : Diagnostic}, x.Like x' → x.line = x'.line := fun hx =>
    congrArg (·.1) hx
  induction h with
  | nil => exact .cons hd .nil
  | @cons e e' ds ds' he hds ih =>
    rw [insert, insert, hline hd, hline he]
    split
    · exact .cons hd (.cons he hds)
    · exact .cons he ih

theorem like_byLine {ds ds' : List Diagnostic} (h : List.Forall₂ Like ds ds') :
    List.Forall₂ Like (byLine ds) (byLine ds') := by
  induction h with
  | nil => exact .nil
  | cons hd hds ih => exact like_insert hd ih

theorem like_refl (ds : List Diagnostic) : List.Forall₂ Like ds ds :=
  List.forall₂_same.2 fun _ _ => rfl

end Diagnostic

namespace Row

variable {names : SymbolTable} (hname : names.IsConstant name v) (isa : Isa)

include hname

theorem bytes_inlines {row row' : Row} (h : row.Inlines name v row') :
    row.bytes isa names = row'.bytes isa names := by
  obtain ⟨line, place, address, plan⟩ := row
  obtain ⟨line', place', address', plan'⟩ := row'
  obtain ⟨-, -, rfl, hplan⟩ := h
  cases hplan with
  | kept => rfl
  | instruction m hargs =>
    simp only [bytes, Plan.bytes]
    rcases (Encoding.alike_ofStatement hname isa address m.name hargs).cases with
      ⟨q, q', he, he', -⟩ | ⟨e, e', he, he', rfl⟩
    · rw [he, he']
    · rw [he, he']

/-- A row refers to the same name, and what is reported about it is of the same class. -/
theorem realized_inlines {row row' : Row} (h : row.Inlines name v row') :
    (row.realized isa names).relocation = (row'.realized isa names).relocation ∧
      List.Forall₂ Diagnostic.Like (row.realized isa names).diagnostics
        (row'.realized isa names).diagnostics := by
  obtain ⟨line, place, address, plan⟩ := row
  obtain ⟨line', place', address', plan'⟩ := row'
  obtain ⟨hline, -, rfl, hplan⟩ := h
  cases hplan with
  | kept =>
    have hnumber : line.number = line'.number := hline
    have hsame : realized isa names ⟨line, place, address, plan⟩ =
        realized isa names ⟨line', place', address, plan⟩ := by simp only [realized, hnumber]
    rw [hsame]
    exact ⟨rfl, Diagnostic.like_refl _⟩
  | instruction m hargs =>
    simp only [realized]
    rcases (Encoding.alike_ofStatement hname isa address m.name hargs).cases with
      ⟨q, q', he, he', hkind⟩ | ⟨e, e', he, he', rfl⟩
    · rw [he, he', hline]
      exact ⟨rfl, Diagnostic.like_map_of_kind hkind⟩
    · rw [he, he', hline]
      exact ⟨rfl, Diagnostic.like_refl _⟩

theorem bytesIn_inlines {rows rows' : List Row}
    (h : List.Forall₂ (Row.Inlines name v) rows rows') (place : Section) :
    bytesIn isa names place rows = bytesIn isa names place rows' := by
  induction h with
  | nil => rfl
  | @cons row row' rows rows' hrow hrows ih =>
    unfold bytesIn at ih ⊢
    rw [List.filter_cons, List.filter_cons, hrow.place]
    split
    · rw [List.flatMap_cons, List.flatMap_cons, bytes_inlines hname isa hrow, ih]
    · exact ih

end Row

theorem Assembly.references_congr {realized realized' : List Realized}
    (h : List.Forall₂ (fun r r' => r.line = r'.line ∧ r.relocation = r'.relocation) realized
      realized') : references realized = references realized' := by
  refine List.rel_foldl ?_ rfl h
  rintro seen _ rfl r r' ⟨hline, hrelocation⟩
  dsimp only
  rw [hline, hrelocation]

theorem Listing.module_inlines {settings : Settings} {l l' : Listing}
    (hname : l.names.IsConstant name v) (hnames : l.names = l'.names)
    (hrows : List.Forall₂ (Row.Inlines name v) l.rows l'.rows) :
    l.module settings = l'.module settings := by
  have hmap : (l.rows.map fun row => (row.realized settings.isa l.names).relocation) =
      l'.rows.map fun row => (row.realized settings.isa l.names).relocation := by
    rw [← List.forall₂_eq_eq_eq, List.forall₂_map_left_iff, List.forall₂_map_right_iff]
    exact hrows.imp fun _ _ hrow => (Row.realized_inlines hname settings.isa hrow).1
  have hrelocations := congrArg (List.filterMap id) hmap
  rw [List.filterMap_map, List.filterMap_map] at hrelocations
  rw [module, module, ← hnames, Row.bytesIn_inlines hname settings.isa hrows,
    Row.bytesIn_inlines hname settings.isa hrows]
  exact congrArg (Module.mk _ _ _ _ _) hrelocations

namespace Placed

variable {placed placed' : List Placed} (h : List.Forall₂ (Placed.Inlines name v) placed placed')

include h

theorem diagnostics_inlines :
    placed.flatMap (·.diagnostics) = placed'.flatMap (·.diagnostics) := by
  induction h with
  | nil => rfl
  | @cons p p' placed placed' hp hplaced ih =>
    have hnumber : p.line.number = p'.line.number := hp.row.number
    rw [List.flatMap_cons, List.flatMap_cons, ih, diagnostics, diagnostics, hnumber, hp.problems]

theorem realized_inlines {names : SymbolTable} (hname : names.IsConstant name v) (isa : Isa) :
    List.Forall₂ Diagnostic.Like
      (placed.flatMap fun p => (p.row.realized isa names).diagnostics)
      (placed'.flatMap fun p => (p.row.realized isa names).diagnostics) := by
  induction h with
  | nil => exact .nil
  | cons hp hplaced ih =>
    rw [List.flatMap_cons, List.flatMap_cons]
    exact List.rel_append (Row.realized_inlines hname isa hp.row).2 ih

theorem undefinedSymbols_inlines {names : SymbolTable} (hname : names.IsConstant name v)
    (isa : Isa) :
    Assembly.undefinedSymbols names (placed.map fun p => p.row.realized isa names) =
      Assembly.undefinedSymbols names (placed'.map fun p => p.row.realized isa names) := by
  rw [Assembly.undefinedSymbols, Assembly.undefinedSymbols, Assembly.references_congr]
  rw [List.forall₂_map_left_iff, List.forall₂_map_right_iff]
  refine h.imp fun p p' hp => ⟨?_, (Row.realized_inlines hname isa hp.row).1⟩
  rw [Row.line_realized, Row.line_realized, hp.row.number]

end Placed

end

/-! ### Sources -/

/-- Wherever a name is in the end bound to a number and is no label, the number can be written for
any of its occurrences in the operands of instructions: the module stays as it is, and so does the
sequence of what is reported, apart from the texts. -/
theorem inline_assemble (source : String) (settings : Settings) (name : String) (v : Word)
    (pick : Nat → Nat → Bool) :
    (Source.read (Source.inline name v pick source)).lines =
        (Source.read source).lines.map (fun line => line.inlined name v (pick line.number)) ∧
      ∃ a a', assemble source settings = .ok a ∧
        assemble (Source.inline name v pick source) settings = .ok a' ∧
        (a.module.symbols.IsConstant name v →
          a'.module = a.module ∧
            a'.diagnostics.map (·.summary) = a.diagnostics.map (·.summary)) := by
  obtain ⟨hlines, hread⟩ := Source.read_inline name v pick source
  obtain ⟨a, ha⟩ := exists_assembly source settings
  obtain ⟨a', ha'⟩ := exists_assembly (Source.inline name v pick source) settings
  refine ⟨hlines, a, a', ha, ha', fun hname => ?_⟩
  have hinlines : List.Forall₂ (Line.Inlines name v) (Source.read source).lines
      (Source.read (Source.inline name v pick source)).lines := by
    rw [hlines, List.forall₂_map_right_iff]
    exact List.forall₂_same.2 fun line _ => Line.inlines_inlined name v _ line
  have hmodule : a'.module = a.module := by
    obtain ⟨hnames, hrows⟩ := Listing.inlines_ofLines settings hinlines
    rw [module_assemble ha] at hname
    rw [module_assemble ha, module_assemble ha']
    exact (Listing.module_inlines hname hnames hrows).symm
  obtain ⟨-, hplaced⟩ := Layout.inlines_placeLines settings.isa hinlines (.start settings)
  refine ⟨hmodule, Eq.symm ?_⟩
  rw [← List.forall₂_eq_eq_eq, List.forall₂_map_left_iff, List.forall₂_map_right_iff,
    diagnostics_assemble ha rfl, diagnostics_assemble ha' rfl, hmodule, hread,
    Placed.diagnostics_inlines hplaced, Placed.undefinedSymbols_inlines hplaced hname]
  refine Diagnostic.like_byLine ?_
  exact List.rel_append (List.rel_append (Diagnostic.like_refl _)
    (Placed.realized_inlines hplaced hname settings.isa)) (Diagnostic.like_refl _)

/-- The number can be written for a constant that is defined behind its uses, in a branch and where
it is wrong, and one of the uses can be left. -/
theorem late_constant_inlined :
    ∃ a a', assemble "lw $t2, n($sp)\nadd $t3, $t0, n\nb n-4 # n\nn = 16" {} = .ok a ∧
      assemble "lw $t2, n($sp)\nadd $t3, $t0, 16\nb 16-4 # n\nn = 16" {} = .ok a' ∧
      a.module.symbols.IsConstant "n" 16 ∧ a'.module = a.module ∧
      a.diagnostics = [⟨2, .notRegister "n"⟩] ∧
      a'.diagnostics.map (·.summary) = [(2, .error, .badRegister)] := by
  obtain ⟨-, a, a', ha, ha', hsame⟩ := inline_assemble
    "lw $t2, n($sp)\nadd $t3, $t0, n\nb n-4 # n\nn = 16" {} "n" 16 fun n _ => n != 1
  have htext : Source.inline "n" 16 (fun n _ => n != 1)
      "lw $t2, n($sp)\nadd $t3, $t0, n\nb n-4 # n\nn = 16" =
      "lw $t2, n($sp)\nadd $t3, $t0, 16\nb 16-4 # n\nn = 16" := by decide +kernel
  have hgiven : (assemble "lw $t2, n($sp)\nadd $t3, $t0, n\nb n-4 # n\nn = 16" {}).toOption.map
      (fun a => (a.module.symbols.get? "n", a.diagnostics)) =
      some (some ⟨"n", some 16, none, false⟩, [⟨2, .notRegister "n"⟩]) := by decide +kernel
  rw [ha] at hgiven
  obtain ⟨hsymbol, hdiagnostics⟩ := Prod.mk.inj (Option.some.inj hgiven)
  have hname : a.module.symbols.IsConstant "n" 16 := ⟨_, hsymbol, rfl, rfl⟩
  obtain ⟨hmodule, hsummary⟩ := hsame hname
  rw [hdiagnostics] at hsummary
  exact ⟨a, a', ha, htext ▸ ha', hname, hmodule, hdiagnostics, hsummary⟩

end Mips
