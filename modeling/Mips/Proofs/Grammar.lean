import Mips.Diagnostic
import Mips.Proofs.Expr

/-!
# The grammar of expressions

Expressions are written on five levels. On each of the first four stand the operators that bind
equally, which group to the left; on the last stand single operands.

    E0 := E0 (| or ^) E1 | E1          E3 := E3 (* or / or %) P | P
    E1 := E1 & E2 | E2                 P  := number | string | name | . | - P | ( E0 )
    E2 := E2 (+ or -) E3 | E3

`Derives n tokens e` says that level `n` reads all of `tokens` as `e`. The parser does not go from
level to level: it climbs. Its left side was derived on some level, and no tighter operator comes
next; so the next operation is derived on the level of its operator (`isDerived_climbOn`).
Conversely, behind the tokens of a derivation the parser has its expression as a left side, if nothing
comes next that binds tighter (`Derives.isSide`).
-/

namespace Mips

namespace Expr

/-- The operators of a level. -/
def operators : Nat → List Operator
  | 0 => [.or, .xor]
  | 1 => [.and]
  | 2 => [.add, .sub]
  | 3 => [.mul, .div, .mod]
  | _ => []

/-- Level `n` of the grammar reads all of the tokens as the expression. -/
inductive Derives : Nat → List Token → Expr → Prop
  | number {t : Token} {value : Word} : t.kind = .number value → Derives 4 [t] (.number value)
  | string {t : Token} {value : String} : t.kind = .string value → Derives 4 [t] (.string value)
  | symbol {t : Token} {name : String} : t.kind = .name name → Derives 4 [t] (.symbol name)
  | here {t : Token} : t.kind = .here → Derives 4 [t] .here
  | negate {t : Token} {ts : List Token} {e : Expr} : t.kind = .operator .sub → Derives 4 ts e →
      Derives 4 (t :: ts) (.binary .sub (.number 0) e)
  | group {t u : Token} {ts : List Token} {e : Expr} : t.kind = .leftParen →
      u.kind = .rightParen → Derives 0 ts e → Derives 4 (t :: (ts ++ [u])) e
  | binary {n : Nat} {t : Token} {op : Operator} {ts us : List Token} {lhs rhs : Expr} :
      op ∈ operators n → t.kind = .operator op → Derives n ts lhs → Derives (n + 1) us rhs →
      Derives n (ts ++ t :: us) (.binary op lhs rhs)
  | tighter {n : Nat} {ts : List Token} {e : Expr} : Derives (n + 1) ts e → Derives n ts e

/-- The tokens of an expression on level `n`. Parentheses stand around an operation that binds looser
than the operators of that level, and nowhere else. -/
def spelled : Nat → Expr → List TokenKind
  | _, number value => [.number value]
  | _, string value => [.string value]
  | _, symbol name => [.name name]
  | _, here => [.here]
  | n, binary op lhs rhs =>
    let bare := lhs.spelled op.precedence ++ .operator op :: rhs.spelled (op.precedence + 1)
    if op.precedence < n then .leftParen :: (bare ++ [.rightParen]) else bare

theorem mem_operators {op : Operator} {n : Nat} : op ∈ operators n ↔ op.precedence = n := by
  rcases n with _ | _ | _ | _ | n <;> cases op <;> simp [operators, Operator.precedence]

theorem precedence_lt (op : Operator) : op.precedence < 4 := by
  cases op <;> decide

theorem Derives.loosen {m n : Nat} {ts : List Token} {e : Expr} (hle : n ≤ m)
    (h : Derives m ts e) : Derives n ts e := by
  induction hle with
  | refl => exact h
  | step _ ih => exact ih h.tighter

/-! ### What is parsed is derived -/

theorem derives_leaf {t : Token} {e : Expr} (h : leaf? t.kind = some e) : Derives 4 [t] e := by
  cases hk : t.kind with
  | number value => exact Option.some.inj (hk ▸ h) ▸ .number hk
  | string value => exact Option.some.inj (hk ▸ h) ▸ .string hk
  | name name => exact Option.some.inj (hk ▸ h) ▸ .symbol hk
  | here => exact Option.some.inj (hk ▸ h) ▸ .here hk
  | _ => simp [hk, leaf?] at h

/-- No operator that binds as tightly as `least` or tighter comes next. -/
def Ends (least : Nat) (rest : List Token) : Prop :=
  ∀ t ∈ rest.head?, ∀ op, t.kind = .operator op → op.precedence < least

theorem Ends.mono {m n : Nat} {rest : List Token} (h : Ends m rest) (hle : m ≤ n) : Ends n rest :=
  fun t ht op hk => Nat.lt_of_lt_of_le (h t ht op hk) hle

theorem ends_of_lt {n : Nat} (hn : 4 ≤ n) (rest : List Token) : Ends n rest :=
  fun _ _ op _ => Nat.lt_of_lt_of_le (precedence_lt op) hn

theorem climb_eq_ok {least : Nat} {tokens : List Token} {p : Parsed tokens}
    (h : climb least tokens = .ok p) :
    ∃ lhs, primary tokens = .ok lhs ∧ climbOn least lhs = .ok p := by
  rw [climb] at h
  split at h
  · simp at h
  · next lhs hlhs => exact ⟨lhs, hlhs, h⟩

/-- Reading on ends in front of a looser operator, or takes the next operator and its right side
in. -/
theorem climbOn_eq_ok {least : Nat} {tokens : List Token} {lhs p : Parsed tokens}
    (h : climbOn least lhs = .ok p) :
    p = lhs ∧ Ends least lhs.rest ∨
      ∃ t rest op rhs shorter, lhs.rest = t :: rest ∧ t.kind = .operator op ∧
        least ≤ op.precedence ∧ climb (op.precedence + 1) rest = .ok rhs ∧
        climbOn least (⟨.binary op lhs.expr rhs.expr, rhs.rest, shorter⟩ : Parsed tokens) =
          .ok p := by
  rw [climbOn] at h
  split at h
  · next hrest =>
    refine .inl ⟨(Except.ok.inj h).symm, ?_⟩
    simp [Ends, hrest]
  · next t rest hrest =>
    split at h
    · next op hk =>
      split at h
      · next hlt =>
        refine .inl ⟨(Except.ok.inj h).symm, ?_⟩
        intro u hu op' hk'
        obtain rfl : t = u := by simpa [hrest] using hu
        rw [hk, TokenKind.operator.injEq] at hk'
        exact hk' ▸ hlt
      · next hle =>
        split at h
        · simp at h
        · next rhs hrhs =>
          exact .inr ⟨t, rest, op, rhs, _, hrest, hk, Nat.le_of_not_lt hle, hrhs, h⟩
    · next hnot =>
      refine .inl ⟨(Except.ok.inj h).symm, ?_⟩
      intro u hu op hk
      obtain rfl : t = u := by simpa [hrest] using hu
      exact absurd hk (hnot op)

/-- A single operand is one token, or one with a minus sign or parentheses. -/
theorem primary_eq_ok {t : Token} {rest : List Token} {p : Parsed (t :: rest)}
    (h : primary (t :: rest) = .ok p) :
    leaf? t.kind = some p.expr ∧ p.rest = rest ∨
      (t.kind = .operator .sub ∧ ∃ x, primary rest = .ok x ∧
        p.expr = .binary .sub (.number 0) x.expr ∧ p.rest = x.rest) ∨
      (t.kind = .leftParen ∧ ∃ inner u, climb 0 rest = .ok inner ∧ inner.rest = u :: p.rest ∧
        u.kind = .rightParen ∧ p.expr = inner.expr) := by
  rw [primary] at h
  split at h
  · next e he =>
    obtain rfl := Except.ok.inj h
    exact .inl ⟨he, rfl⟩
  · split at h
    · next hk =>
      split at h
      · simp at h
      · next x hx =>
        obtain rfl := Except.ok.inj h
        exact .inr (.inl ⟨hk, x, hx, rfl, rfl⟩)
    · split at h
      · next hk =>
        split at h
        · simp at h
        · next inner hinner =>
          split at h
          · simp at h
          · next u behind hrest =>
            split at h
            · next hu =>
              obtain rfl := Except.ok.inj h
              exact .inr (.inr ⟨hk, inner, u, hinner, hrest, hu, rfl⟩)
            · simp at h
      · simp at h

/-- Level `n` derives what was read of the tokens. -/
def Parsed.IsDerived {tokens : List Token} (n : Nat) (p : Parsed tokens) : Prop :=
  ∃ ts, tokens = ts ++ p.rest ∧ Derives n ts p.expr

mutual

theorem isDerived_climb {least : Nat} {tokens : List Token} {p : Parsed tokens} (hleast : least ≤ 4)
    (h : climb least tokens = .ok p) : p.IsDerived least ∧ Ends least p.rest := by
  obtain ⟨lhs, hlhs, hclimb⟩ := climb_eq_ok h
  have := lhs.shorter
  exact isDerived_climbOn hleast (isDerived_primary hlhs) (ends_of_lt (by omega) _) hclimb
termination_by 2 * tokens.length + 1

/-- The left side was read on a level `n`, and the next operator is not tighter than those of this
level; so the operation is read on its own level. -/
theorem isDerived_climbOn {least n : Nat} {tokens : List Token} {lhs p : Parsed tokens}
    (hle : least ≤ n) (hlhs : lhs.IsDerived n) (hends : Ends (n + 1) lhs.rest)
    (h : climbOn least lhs = .ok p) : p.IsDerived least ∧ Ends least p.rest := by
  obtain ⟨ts, htokens, hderives⟩ := hlhs
  rcases climbOn_eq_ok h with ⟨rfl, hstop⟩ |
    ⟨t, rest, op, rhs, shorter, hrest, hk, hop, hrhs, hclimb⟩
  · exact ⟨⟨ts, htokens, hderives.loosen hle⟩, hstop⟩
  · have hlt : op.precedence < n + 1 := hends t (by simp [hrest]) op hk
    have hlength : rest.length < lhs.rest.length := by simp [hrest]
    have hright := rhs.shorter
    obtain ⟨⟨us, hus, hderives'⟩, hends'⟩ := isDerived_climb (precedence_lt op) hrhs
    have hbinary : Derives op.precedence (ts ++ t :: us) (.binary op lhs.expr rhs.expr) :=
      .binary (mem_operators.2 rfl) hk (hderives.loosen (Nat.le_of_lt_succ hlt)) hderives'
    have htokens' : tokens = ts ++ t :: us ++ rhs.rest := by
      rw [List.append_assoc, List.cons_append, ← hus, ← hrest]
      exact htokens
    exact isDerived_climbOn hop ⟨ts ++ t :: us, htokens', hbinary⟩ hends' hclimb
termination_by 2 * lhs.rest.length

theorem isDerived_primary {tokens : List Token} {p : Parsed tokens} (h : primary tokens = .ok p) :
    p.IsDerived 4 := by
  cases tokens with
  | nil => simp [primary] at h
  | cons t rest =>
    rcases primary_eq_ok h with ⟨hleaf, hrest⟩ | ⟨hk, x, hx, hexpr, hrest⟩ |
      ⟨hk, inner, u, hinner, hrest, hu, hexpr⟩
    · exact ⟨[t], by simp [hrest], derives_leaf hleaf⟩
    · obtain ⟨ts, hts, hderives⟩ := isDerived_primary hx
      refine ⟨t :: ts, by simp [hts, hrest], ?_⟩
      rw [hexpr]
      exact .negate hk hderives
    · obtain ⟨⟨ts, hts, hderives⟩, -⟩ := isDerived_climb (Nat.zero_le 4) hinner
      refine ⟨t :: (ts ++ [u]), by simp [hts, hrest], ?_⟩
      rw [hexpr]
      exact .group hk hu hderives
termination_by 2 * tokens.length

end

theorem derives_of_parse {tokens : List Token} {e : Expr} (h : parse tokens = .ok e) :
    Derives 0 tokens e := by
  unfold parse at h
  split at h
  · simp at h
  · next whole hwhole =>
    obtain ⟨⟨ts, hts, hderives⟩, -⟩ := isDerived_climb (Nat.zero_le 4) hwhole
    split at h
    · next hrest =>
      rw [hrest, List.append_nil] at hts
      rw [hts, ← Except.ok.inj h]
      exact hderives
    · simp at h

/-! ### What is derived is parsed -/

theorem climbOn_of_ends {least : Nat} {tokens : List Token} {lhs : Parsed tokens}
    (h : Ends least lhs.rest) : climbOn least lhs = .ok lhs := by
  rw [climbOn]
  split
  · rfl
  · next t rest hrest =>
    split
    · next op hk => rw [if_pos (h t (by simp [hrest]) op hk)]
    · rfl

theorem climbOn_of_operator {least : Nat} {tokens rest : List Token} {lhs : Parsed tokens}
    {t : Token} {op : Operator} {rhs : Parsed rest} (hrest : lhs.rest = t :: rest)
    (hk : t.kind = .operator op) (hle : least ≤ op.precedence)
    (hrhs : climb (op.precedence + 1) rest = .ok rhs) (shorter) :
    climbOn least lhs =
      climbOn least (⟨.binary op lhs.expr rhs.expr, rhs.rest, shorter⟩ : Parsed tokens) := by
  rw [climbOn]
  split
  · next hnil => simp [hrest] at hnil
  · next t' rest' hcons =>
    rw [hrest, List.cons.injEq] at hcons
    obtain ⟨rfl, rfl⟩ := hcons
    simp only [hk, hrhs, if_neg (Nat.not_lt_of_le hle)]

theorem Derives.le {n : Nat} {ts : List Token} {e : Expr} (h : Derives n ts e) : n ≤ 4 := by
  induction h with
  | number | string | symbol | here | negate | group => omega
  | @binary n t op _ _ _ _ hop _ _ _ _ _ =>
    rw [← mem_operators.1 hop]
    exact Nat.le_of_lt (precedence_lt op)
  | tighter _ ih => omega

theorem Derives.shorter {n : Nat} {ts : List Token} {e : Expr} (h : Derives n ts e)
    (rest : List Token) : rest.length < (ts ++ rest).length := by
  have hpos : 0 < ts.length := by
    induction h with
    | number | string | symbol | here | negate | group => simp
    | binary =>
      rw [List.length_append, List.length_cons]
      omega
    | tighter _ ih => exact ih
  rw [List.length_append]
  omega

/-- Behind the tokens of a single operand the parser has its expression, whatever comes next. -/
def IsOperand (ts : List Token) (e : Expr) : Prop :=
  ∀ tokens rest shorter, tokens = ts ++ rest → primary tokens = .ok ⟨e, rest, shorter⟩

/-- Behind the tokens of level `n` the parser has their expression as a left side, if nothing comes
next that binds tighter. -/
def IsSide (n : Nat) (ts : List Token) (e : Expr) : Prop :=
  ∀ least tokens rest shorter, least ≤ n → Ends (n + 1) rest → tokens = ts ++ rest →
    climb least tokens = climbOn least ⟨e, rest, shorter⟩

theorem IsOperand.isSide {ts : List Token} {e : Expr} (h : IsOperand ts e) : IsSide 4 ts e := by
  intro least tokens rest shorter _ _ htokens
  rw [climb, h tokens rest shorter htokens]

theorem IsOperand.negate {t : Token} {ts : List Token} {e : Expr} (hk : t.kind = .operator .sub)
    (hderives : Derives 4 ts e) (h : IsOperand ts e) :
    IsOperand (t :: ts) (.binary .sub (.number 0) e) := by
  rintro tokens rest shorter rfl
  have hread := h (ts ++ rest) rest (hderives.shorter rest) rfl
  simp only [List.cons_append, primary, hk, leaf?, if_true, hread]

theorem IsSide.group {t u : Token} {ts : List Token} {e : Expr} (hkl : t.kind = .leftParen)
    (hkr : u.kind = .rightParen) (hderives : Derives 0 ts e) (h : IsSide 0 ts e) :
    IsOperand (t :: (ts ++ [u])) e := by
  intro tokens rest shorter htokens
  have hends : ∀ n, Ends n (u :: rest) := by
    intro n v hv op hk
    obtain rfl : u = v := by simpa using hv
    rw [hkr] at hk
    simp at hk
  have hread := h 0 (ts ++ u :: rest) (u :: rest) (hderives.shorter _) (Nat.le_refl 0) (hends 1) rfl
  rw [climbOn_of_ends (hends 0)] at hread
  obtain rfl : tokens = t :: (ts ++ u :: rest) := by rw [htokens]; simp
  simp [primary, hkl, hkr, leaf?, hread]

theorem IsSide.binary {t : Token} {op : Operator} {ts us : List Token} {lhs rhs : Expr}
    (hk : t.kind = .operator op) (hderivesLhs : Derives op.precedence ts lhs)
    (hderivesRhs : Derives (op.precedence + 1) us rhs) (hlhs : IsSide op.precedence ts lhs)
    (hrhs : IsSide (op.precedence + 1) us rhs) :
    IsSide op.precedence (ts ++ t :: us) (.binary op lhs rhs) := by
  rintro least tokens rest shorter hle hends htokens
  have hops : Ends (op.precedence + 1) (t :: (us ++ rest)) := by
    intro v hv op' hk'
    obtain rfl : t = v := by simpa using hv
    obtain rfl : op = op' := by simpa [hk] using hk'
    exact Nat.lt_succ_self _
  have hright := hrhs _ (us ++ rest) rest (hderivesRhs.shorter _) (Nat.le_refl _)
    (hends.mono (Nat.le_succ _)) rfl
  rw [climbOn_of_ends hends] at hright
  obtain rfl : tokens = ts ++ t :: (us ++ rest) := by rw [htokens]; simp
  rw [hlhs least _ _ (hderivesLhs.shorter _) hle hops rfl]
  exact climbOn_of_operator rfl hk hle hright shorter

theorem Derives.isSide {n : Nat} {ts : List Token} {e : Expr} (h : Derives n ts e) :
    (n = 4 → IsOperand ts e) ∧ IsSide n ts e := by
  have hleaf : ∀ {t : Token} {e : Expr}, leaf? t.kind = some e → IsOperand [t] e := by
    rintro t e he tokens rest shorter rfl
    simp only [List.singleton_append, primary, he]
  induction h with
  | number hk | string hk | symbol hk | here hk =>
    have hread := hleaf (by rw [hk]; rfl)
    exact ⟨fun _ => hread, hread.isSide⟩
  | negate hk hderives ih =>
    have hread := (ih.1 rfl).negate hk hderives
    exact ⟨fun _ => hread, hread.isSide⟩
  | group hkl hkr hderives ih =>
    have hread := ih.2.group hkl hkr hderives
    exact ⟨fun _ => hread, hread.isSide⟩
  | @binary n t op ts us lhs rhs hop hk hlhs hrhs ihLhs ihRhs =>
    obtain rfl := mem_operators.1 hop
    exact ⟨fun h4 => absurd h4 (Nat.ne_of_lt (precedence_lt op)),
      .binary hk hlhs hrhs ihLhs.2 ihRhs.2⟩
  | @tighter n ts e hderives ih =>
    have hle := hderives.le
    refine ⟨fun h4 => by omega, fun least tokens rest shorter hle hends htokens => ?_⟩
    exact ih.2 least tokens rest shorter (by omega) (hends.mono (Nat.le_succ _)) htokens

theorem Derives.parse {tokens : List Token} {e : Expr} (h : Derives 0 tokens e) :
    parse tokens = .ok e := by
  have hends : ∀ n, Ends n [] := by
    intro n t ht
    simp at ht
  have hshorter := h.shorter []
  rw [List.append_nil] at hshorter
  have hread := h.isSide.2 0 tokens [] hshorter (Nat.le_refl 0) (hends 1) (by simp)
  rw [climbOn_of_ends (hends 0)] at hread
  rw [Expr.parse, hread]

/-! ### What is not parsed -/

-- no value is looked at while parsing, so all that can be wrong is the order of the tokens
mutual

theorem kind_climb {least : Nat} {tokens : List Token} {cause : ExprError}
    (h : climb least tokens = .error cause) :
    (Problem.expression cause).kind = .badExpression := by
  rw [climb] at h
  split at h
  · next hcause => exact Except.error.inj h ▸ kind_primary hcause
  · next lhs hlhs =>
    have := lhs.shorter
    exact kind_climbOn h
termination_by 2 * tokens.length + 1

theorem kind_climbOn {least : Nat} {tokens : List Token} {lhs : Parsed tokens} {cause : ExprError}
    (h : climbOn least lhs = .error cause) :
    (Problem.expression cause).kind = .badExpression := by
  rw [climbOn] at h
  split at h
  · simp at h
  · next t rest hrest =>
    have hlength : rest.length < lhs.rest.length := by simp [hrest]
    split at h
    · split at h
      · simp at h
      · split at h
        · next hcause => exact Except.error.inj h ▸ kind_climb hcause
        · next rhs hrhs =>
          have := rhs.shorter
          exact kind_climbOn h
    · simp at h
termination_by 2 * lhs.rest.length

theorem kind_primary {tokens : List Token} {cause : ExprError}
    (h : primary tokens = .error cause) : (Problem.expression cause).kind = .badExpression := by
  cases tokens with
  | nil =>
    rw [primary] at h
    exact Except.error.inj h ▸ rfl
  | cons t rest =>
    rw [primary] at h
    split at h
    · simp at h
    · split at h
      · split at h
        · next hcause => exact Except.error.inj h ▸ kind_primary hcause
        · simp at h
      · split at h
        · split at h
          · next hcause => exact Except.error.inj h ▸ kind_climb hcause
          · split at h
            · exact Except.error.inj h ▸ rfl
            · split at h
              · simp at h
              · exact Except.error.inj h ▸ rfl
        · exact Except.error.inj h ▸ rfl
termination_by 2 * tokens.length

end

theorem kind_parse {tokens : List Token} {cause : ExprError} (h : parse tokens = .error cause) :
    (Problem.expression cause).kind = .badExpression := by
  unfold parse at h
  split at h
  · next hcause => exact Except.error.inj h ▸ kind_climb hcause
  · split at h
    · simp at h
    · exact Except.error.inj h ▸ rfl

/-! ### Names -/

theorem Derives.names {n : Nat} {ts : List Token} {e : Expr} (h : Derives n ts e) :
    e.names = Token.names ts := by
  induction h with
  | number hk | string hk | symbol hk | here hk => simp [Expr.names, Token.names, Token.name?, hk]
  | negate hk _ ih => simpa [Expr.names, Token.names, Token.name?, hk] using ih
  | group hkl hkr _ ih => simpa [Expr.names, Token.names, Token.name?, hkl, hkr] using ih
  | binary _ hk _ _ ihLhs ihRhs =>
    rw [Expr.names, ihLhs, ihRhs]
    simp [Token.names, Token.name?, hk]
  | tighter _ ih => exact ih

/-- The names of an expression are those of its tokens, in the same order. -/
theorem names_parse {tokens : List Token} {e : Expr} (h : parse tokens = .ok e) :
    e.names = Token.names tokens :=
  (derives_of_parse h).names

/-! ### Spelling -/

theorem map_kind_eq_singleton {tokens : List Token} {kind : TokenKind}
    (h : tokens.map (·.kind) = [kind]) : ∃ t : Token, tokens = [t] ∧ t.kind = kind := by
  obtain ⟨t, ts, rfl, hk, hts⟩ := List.map_eq_cons_iff.1 h
  exact ⟨t, by rw [List.map_eq_nil_iff.1 hts], hk⟩

theorem derives_spelled : ∀ {e : Expr} {n : Nat} {tokens : List Token}, n ≤ 4 →
    tokens.map (·.kind) = e.spelled n → Derives n tokens e
  | number _, _, _, hn, h => by
    obtain ⟨t, rfl, hk⟩ := map_kind_eq_singleton h
    exact (Derives.number hk).loosen hn
  | string _, _, _, hn, h => by
    obtain ⟨t, rfl, hk⟩ := map_kind_eq_singleton h
    exact (Derives.string hk).loosen hn
  | symbol _, _, _, hn, h => by
    obtain ⟨t, rfl, hk⟩ := map_kind_eq_singleton h
    exact (Derives.symbol hk).loosen hn
  | here, _, _, hn, h => by
    obtain ⟨t, rfl, hk⟩ := map_kind_eq_singleton h
    exact (Derives.here hk).loosen hn
  | binary op lhs rhs, n, tokens, hn, h => by
    have hbare : ∀ {ts : List Token}, ts.map (·.kind) =
        lhs.spelled op.precedence ++ .operator op :: rhs.spelled (op.precedence + 1) →
        Derives op.precedence ts (.binary op lhs rhs) := by
      intro ts hts
      obtain ⟨ls, us, rfl, hls, hus⟩ := List.map_eq_append_iff.1 hts
      obtain ⟨t, rs, rfl, hk, hrs⟩ := List.map_eq_cons_iff.1 hus
      exact .binary (mem_operators.2 rfl) hk (derives_spelled (Nat.le_of_lt (precedence_lt op)) hls)
        (derives_spelled (precedence_lt op) hrs)
    simp only [spelled] at h
    split at h
    · obtain ⟨t, us, rfl, hkl, hus⟩ := List.map_eq_cons_iff.1 h
      obtain ⟨ts, vs, rfl, hts, hvs⟩ := List.map_eq_append_iff.1 hus
      obtain ⟨u, rfl, hkr⟩ := map_kind_eq_singleton hvs
      exact (Derives.group hkl hkr ((hbare hts).loosen (Nat.zero_le _))).loosen hn
    · exact (hbare h).loosen (by omega)

/-- An operator in front of looser ones takes in the first operand only. -/
theorem Derives.exists_prepend {m : Nat} {ts : List Token} {e : Expr} (h : Derives m ts e)
    {x t : Token} {op : Operator} (hx : x.kind = .here) (hk : t.kind = .operator op)
    (hle : m ≤ op.precedence) : ∃ e', Derives m (x :: t :: ts) e' := by
  induction h with
  | number | string | symbol | here | negate | group =>
    have hlt := precedence_lt op
    omega
  | binary hop hk' _ hrhs ihLhs _ =>
    obtain ⟨e', he'⟩ := ihLhs hle
    exact ⟨_, .binary hop hk' he' hrhs⟩
  | @tighter m ts e htight ih =>
    rcases Nat.lt_or_eq_of_le hle with hlt | rfl
    · obtain ⟨e', he'⟩ := ih hlt
      exact ⟨e', he'.tighter⟩
    · have hfirst : Derives op.precedence [x] .here :=
        (Derives.here hx).loosen (Nat.le_of_lt (precedence_lt op))
      exact ⟨_, .binary (mem_operators.2 rfl) hk hfirst htight⟩

/-- The parentheses of a spelling are needed: without them, no tighter level reads the operation. -/
theorem not_derives_spelled {n : Nat} {tokens : List Token} {op : Operator} {lhs rhs : Expr}
    (hlt : op.precedence < n) (h : tokens.map (·.kind) = (binary op lhs rhs).spelled 0) :
    ¬ Derives n tokens (.binary op lhs rhs) := by
  intro hderives
  obtain ⟨ts, us, rfl, hts, hus⟩ := List.map_eq_append_iff.1 h
  obtain ⟨t, rs, rfl, hk, hrs⟩ := List.map_eq_cons_iff.1 hus
  -- an operator of the level below `n` in front would have to be read in two ways
  obtain ⟨front, hfront⟩ : ∃ front : Operator, front.precedence + 1 = n := by
    have hle := hderives.le
    rcases n with _ | _ | _ | _ | _ | n
    · omega
    · exact ⟨.or, rfl⟩
    · exact ⟨.and, rfl⟩
    · exact ⟨.add, rfl⟩
    · exact ⟨.mul, rfl⟩
    · omega
  subst hfront
  let x : Token := ⟨.here, "."⟩
  let u : Token := ⟨.operator front, ""⟩
  have hlhs : Derives op.precedence ts lhs :=
    derives_spelled (Nat.le_of_lt (precedence_lt op)) hts
  obtain ⟨e', he'⟩ := hlhs.exists_prepend (x := x) (t := u) rfl rfl (by omega)
  have hloose : Derives op.precedence (x :: u :: ts ++ t :: rs) (.binary op e' rhs) :=
    .binary (mem_operators.2 rfl) hk he' (derives_spelled (precedence_lt op) hrs)
  have hfirst : Derives front.precedence [x] .here :=
    (Derives.here rfl).loosen (Nat.le_of_lt (precedence_lt front))
  have htight : Derives front.precedence ([x] ++ u :: (ts ++ t :: rs))
      (.binary front .here (.binary op lhs rhs)) :=
    .binary (mem_operators.2 rfl) rfl hfirst hderives
  have hsame := (hloose.loosen (Nat.zero_le _)).parse.symm.trans
    (htight.loosen (Nat.zero_le _)).parse
  have hsize := congrArg sizeOf (Expr.binary.inj (Except.ok.inj hsame)).2.2
  simp at hsize

/-- Parsing gives exactly the expressions that the grammar derives from the tokens; where there is
none it fails, and says that the tokens are no expression. So an expression that is written with the
parentheses it needs, and no others, is read again as it was. -/
theorem parse_derives (tokens : List Token) :
    (∀ e, parse tokens = .ok e ↔ Derives 0 tokens e) ∧
    ((∃ e, Derives 0 tokens e) ∨
      ∃ cause, parse tokens = .error cause ∧ (Problem.expression cause).kind = .badExpression) ∧
    (∀ e, tokens.map (·.kind) = e.spelled 0 → parse tokens = .ok e) ∧
    ∀ op lhs rhs n, tokens.map (·.kind) = (binary op lhs rhs).spelled 0 → op.precedence < n →
      ¬ Derives n tokens (.binary op lhs rhs) := by
  refine ⟨fun e => ⟨derives_of_parse, Derives.parse⟩, ?_, fun e h => ?_, ?_⟩
  · cases h : parse tokens with
    | ok e => exact .inl ⟨e, derives_of_parse h⟩
    | error cause => exact .inr ⟨cause, rfl, kind_parse h⟩
  · exact (derives_spelled (Nat.zero_le 4) h).parse
  · intro op lhs rhs n h hlt
    exact not_derives_spelled hlt h

/-- Subtraction groups to the left, so that only the second of two differences needs parentheses. -/
theorem second_difference_grouped :
    let e : Expr := .binary .or (.binary .sub (.binary .sub (.number 9) (.number 4))
      (.binary .sub (.symbol "k") .here)) (.binary .mul (.number 2) (.binary .xor .here (.number 1)))
    ∃ tokens, (Token.scan "9-4-(k-.) | 2*(.^1)".toList).toOption = some tokens ∧
      tokens.map (·.kind) = e.spelled 0 ∧ parse tokens = .ok e ∧ ¬ Derives 1 tokens e := by
  intro e
  have hscan : (Token.scan "9-4-(k-.) | 2*(.^1)".toList).toOption.map (·.map (·.kind)) =
      some (e.spelled 0) := by decide +kernel
  obtain ⟨tokens, htokens, hkinds⟩ := Option.map_eq_some_iff.1 hscan
  obtain ⟨-, -, hparse, htighter⟩ := parse_derives tokens
  exact ⟨tokens, htokens, hkinds, hparse e hkinds, htighter _ _ _ 1 hkinds (by decide)⟩

end Expr

end Mips
