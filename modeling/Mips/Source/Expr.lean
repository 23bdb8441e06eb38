import Mips.Source.Token

/-!
# Expressions

Operands, data values and constants are expressions over numbers, symbols and the address of the
line. An expression evaluates to a word, or to nothing yet where it depends on a symbol whose
address is not known. Operators bind by `Operator.precedence` and group to the left; a minus sign in
front of an operand takes it from zero.

Parsing climbs from loose operators to tight ones: `climb` reads an operand and then, in `climbOn`,
the operators behind it that bind tightly enough, each with a right side that is read by `climb`
again. What is left of the tokens is handed on, and is shorter each time.
-/

namespace Mips

/-- An expression. -/
inductive Expr where
  | number (value : Word)
  /-- A string, which has no value as a number. -/
  | string (value : String)
  | symbol (name : String)
  /-- The address of the line. -/
  | here
  | binary (op : Operator) (lhs rhs : Expr)
  deriving DecidableEq, Repr

/-- Why tokens are no expression, or an expression has no value. -/
inductive ExprError where
  | unexpectedEnd
  | unexpected (text : String)
  | missingParen
  | divisionByZero
  | notNumber (value : String)
  deriving DecidableEq, Repr

namespace ExprError

def message : ExprError → String
  | unexpectedEnd => "unparsable expression: unexpected end of expression"
  | unexpected text => "unparsable expression: unexpected '" ++ text ++ "'"
  | missingParen => "unparsable expression: expected ')'"
  | divisionByZero => "division by zero"
  | notNumber value => "string literal \"" ++ value ++ "\" can't be used as a number"

end ExprError

namespace Expr

/-! ### Values -/

/-- The value of an expression where `.` is `address`. It is `none` as long as it depends on a symbol
without address; a division that does so is not looked at. -/
def eval (symbols : SymbolTable) (address : Word) : Expr → Except ExprError (Option Word)
  | number value => .ok (some value)
  | string value => .error (.notNumber value)
  | symbol name => .ok (symbols.address? name)
  | here => .ok (some address)
  | binary op lhs rhs =>
    match lhs.eval symbols address with
    | .error e => .error e
    | .ok x =>
      match rhs.eval symbols address with
      | .error e => .error e
      | .ok y =>
        match x, y with
        | some x, some y =>
          match op.apply x y with
          | some value => .ok (some value)
          | none => .error .divisionByZero
        | _, _ => .ok none

/-- Whether the address of the line or of a label is a part of the expression. Constants are plain
numbers and do not count. -/
def hasLabel (symbols : SymbolTable) : Expr → Bool
  | symbol name => symbols.isLabel name
  | here => true
  | binary _ lhs rhs => lhs.hasLabel symbols || rhs.hasLabel symbols
  | number _ | string _ => false

/-- The first symbol without an address. -/
def unresolved? (symbols : SymbolTable) : Expr → Option String
  | symbol name => if (symbols.address? name).isNone then some name else none
  | binary _ lhs rhs => (lhs.unresolved? symbols).or (rhs.unresolved? symbols)
  | number _ | string _ | here => none

/-! ### Parsing -/

/-- An expression that was read from the front of `tokens`, and what is left of them. -/
structure Parsed (tokens : List Token) where
  expr : Expr
  rest : List Token
  /-- At least one token was read. -/
  shorter : rest.length < tokens.length

/-- The expression that a token is by itself. -/
def leaf? : TokenKind → Option Expr
  | .number value => some (.number value)
  | .string value => some (.string value)
  | .name name => some (.symbol name)
  | .here => some .here
  | .label _ | .mnemonic _ | .definition _ | .directive _ | .register _ | .operator _ | .assign
  | .comma | .leftParen | .rightParen => none

mutual

/-- Read an operand, and every operator behind it that binds as tightly as `least` or tighter. -/
def climb (least : Nat) (tokens : List Token) : Except ExprError (Parsed tokens) :=
  match primary tokens with
  | .error e => .error e
  | .ok lhs => climbOn least lhs
termination_by 2 * tokens.length + 1
decreasing_by
  · omega
  · have := lhs.shorter
    omega

/-- Read on behind an expression as long as operators come that bind as tightly as `least` or
tighter. The right side of an operator has tighter ones only. -/
def climbOn (least : Nat) {tokens : List Token} (lhs : Parsed tokens) :
    Except ExprError (Parsed tokens) :=
  match h : lhs.rest with
  | [] => .ok lhs
  | t :: rest =>
    match t.kind with
    | .operator op =>
      if op.precedence < least then .ok lhs
      else
        match climb (op.precedence + 1) rest with
        | .error e => .error e
        | .ok rhs =>
          have shorter : rhs.rest.length < lhs.rest.length := by
            rw [h, List.length_cons]
            exact Nat.lt_succ_of_lt rhs.shorter
          climbOn least ⟨.binary op lhs.expr rhs.expr, rhs.rest, Nat.lt_trans shorter lhs.shorter⟩
    | _ => .ok lhs
termination_by 2 * lhs.rest.length
decreasing_by
  · rw [h, List.length_cons]
    omega
  · exact Nat.mul_lt_mul_of_pos_left shorter Nat.two_pos

/-- Read a single operand. -/
def primary : (tokens : List Token) → Except ExprError (Parsed tokens)
  | [] => .error .unexpectedEnd
  | t :: rest =>
    have shorter : rest.length < (t :: rest).length := Nat.lt_succ_self _
    match leaf? t.kind with
    | some e => .ok ⟨e, rest, shorter⟩
    | none =>
      if t.kind = .operator .sub then
        match primary rest with
        | .error e => .error e
        | .ok x => .ok ⟨.binary .sub (.number 0) x.expr, x.rest, Nat.lt_trans x.shorter shorter⟩
      else if t.kind = .leftParen then
        match climb 0 rest with
        | .error e => .error e
        | .ok inner =>
          match h : inner.rest with
          | [] => .error .missingParen
          | u :: behind =>
            have closed : behind.length < inner.rest.length := by
              rw [h, List.length_cons]
              exact Nat.lt_succ_self _
            if u.kind = .rightParen then
              .ok ⟨inner.expr, behind, Nat.lt_trans closed (Nat.lt_trans inner.shorter shorter)⟩
            else .error .missingParen
      else .error (.unexpected t.text)
termination_by tokens => 2 * tokens.length
decreasing_by
  · omega
  · simp only [List.length_cons]
    omega

end

/-- The expression that the tokens spell. -/
def parse (tokens : List Token) : Except ExprError Expr :=
  match climb 0 tokens with
  | .error e => .error e
  | .ok whole =>
    match whole.rest with
    | [] => .ok whole.expr
    | t :: _ => .error (.unexpected t.text)

/-- The value of the expression that the tokens spell. -/
def evalTokens (symbols : SymbolTable) (address : Word) (tokens : List Token) :
    Except ExprError (Option Word) :=
  match parse tokens with
  | .error e => .error e
  | .ok e => e.eval symbols address

end Expr

end Mips
