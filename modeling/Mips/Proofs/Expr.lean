import Mips.Source.Expr

/-!
# Names in expressions

An expression with a value has no name without address, and one without a value has such a name; the
one to wait for is the first that is written (`unresolved?_eq_find?`).
-/

namespace Mips

/-- The name that a token spells. -/
def Token.name? (t : Token) : Option String :=
  match t.kind with
  | .name name => some name
  | _ => none

/-- The names among tokens. -/
def Token.names (tokens : List Token) : List String := tokens.filterMap Token.name?

namespace Expr

/-- The names in an expression, from left to right. -/
def names : Expr → List String
  | symbol name => [name]
  | binary _ lhs rhs => lhs.names ++ rhs.names
  | number _ | string _ | here => []

/-! ### Values -/

theorem evalTokens_nil (symbols : SymbolTable) (address : Word) :
    evalTokens symbols address [] = .error .unexpectedEnd := by
  simp [evalTokens, parse, climb, primary]

theorem evalTokens_number (symbols : SymbolTable) (address v : Word) (text : String) :
    evalTokens symbols address [⟨.number v, text⟩] = .ok (some v) := by
  simp [evalTokens, parse, climb, climbOn, primary, leaf?, eval]

theorem unresolved?_eq_find? (symbols : SymbolTable) :
    ∀ e : Expr, e.unresolved? symbols = e.names.find? fun name => (symbols.address? name).isNone
  | number _ => rfl
  | string _ => rfl
  | here => rfl
  | symbol name => by
    simp only [unresolved?, names, List.find?_cons, List.find?_nil]
    cases symbols.address? name <;> rfl
  | binary op lhs rhs => by
    rw [unresolved?, names, List.find?_append, unresolved?_eq_find? symbols lhs,
      unresolved?_eq_find? symbols rhs]

/-- An expression has a value or a symbol without address. -/
theorem unresolved?_of_eval (symbols : SymbolTable) (address : Word) :
    ∀ {e : Expr} {v : Option Word}, e.eval symbols address = .ok v →
    (e.unresolved? symbols).isNone = v.isSome
  | number _, v, h => by
    rw [← Except.ok.inj h]
    rfl
  | string _, v, h => by simp [eval] at h
  | here, v, h => by
    rw [← Except.ok.inj h]
    rfl
  | symbol name, v, h => by
    rw [← Except.ok.inj h, unresolved?]
    cases symbols.address? name <;> rfl
  | binary op lhs rhs, v, h => by
    simp only [eval] at h
    split at h
    · simp at h
    · next x hx =>
      split at h
      · simp at h
      · next y hy =>
        have hlhs := unresolved?_of_eval symbols address hx
        have hrhs := unresolved?_of_eval symbols address hy
        rw [unresolved?, Option.isNone_or, hlhs, hrhs]
        split at h
        · split at h
          · rw [← Except.ok.inj h]
            rfl
          · simp at h
        · next hnot =>
          rw [← Except.ok.inj h]
          cases x with
          | none => rfl
          | some x =>
            cases y with
            | none => rfl
            | some y => exact absurd rfl (hnot x y rfl)

end Expr

end Mips
