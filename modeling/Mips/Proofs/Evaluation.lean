import Mips.Proofs.Expr
import Mips.Proofs.Symbol

/-!
# Values while the table grows

Where an expression has a value, it keeps it when more names get an address. An expression that
waits for a name may still get any value, or be found to divide by zero: as long as an operand waits,
the division is not looked at. Read backwards, an expression that is good under the larger table was
good under the smaller one, with the same value or with none yet.

    table     t ⊆ u
    value     v ──▶ v
              waits ──▶ waits, a value, a division by zero
              error ──▶ error
-/

namespace Mips

namespace Expr

open SymbolTable

/-- What makes up the value of an expression with an operator. -/
theorem eval_binary_eq_ok {symbols : SymbolTable} {address : Word} {op : Operator} {lhs rhs : Expr}
    {v : Option Word} :
    (binary op lhs rhs).eval symbols address = .ok v ↔
      ∃ x y, lhs.eval symbols address = .ok x ∧ rhs.eval symbols address = .ok y ∧
        ((∃ a b c, x = some a ∧ y = some b ∧ op.apply a b = some c ∧ v = some c) ∨
          (x = none ∨ y = none) ∧ v = none) := by
  rw [eval]
  cases hx : lhs.eval symbols address with
  | error e => simp
  | ok x =>
    cases hy : rhs.eval symbols address with
    | error e => simp
    | ok y =>
      cases x with
      | none => simp [eq_comm]
      | some a =>
        cases y with
        | none => simp [eq_comm]
        | some b => cases hc : op.apply a b <;> simp [hc, eq_comm]

variable {t u : SymbolTable} {address : Word}

/-- A value that is known stays the same. -/
theorem eval_of_grows (h : Grows t u) : ∀ {e : Expr} {v : Word},
    e.eval t address = .ok (some v) → e.eval u address = .ok (some v)
  | number _, _, hv => hv
  | string _, _, hv => by simp [eval] at hv
  | here, _, hv => hv
  | symbol name, v, hv => congrArg Except.ok (h.address name v (Except.ok.inj hv))
  | binary op lhs rhs, v, hv => by
    obtain ⟨x, y, hx, hy, ⟨a, b, c, rfl, rfl, hc, hv⟩ | ⟨-, hv⟩⟩ := eval_binary_eq_ok.1 hv
    · exact eval_binary_eq_ok.2 ⟨some a, some b, eval_of_grows h hx, eval_of_grows h hy,
        Or.inl ⟨a, b, c, rfl, rfl, hc, hv⟩⟩
    · simp at hv

/-- An expression without error had none with fewer names either. -/
theorem eval_of_grown (h : Grows t u) : ∀ {e : Expr} {v : Option Word},
    e.eval u address = .ok v → e.eval t address = .ok none ∨ e.eval t address = .ok v
  | number _, _, hv => Or.inr hv
  | string _, _, hv => by simp [eval] at hv
  | here, _, hv => Or.inr hv
  | symbol name, v, hv => by
    cases ha : t.address? name with
    | none => exact Or.inl (congrArg Except.ok ha)
    | some a =>
      rw [eval, h.address name a ha] at hv
      exact Or.inr (hv ▸ congrArg Except.ok ha)
  | binary op lhs rhs, v, hv => by
    obtain ⟨x, y, hx, hy, hvalue⟩ := eval_binary_eq_ok.1 hv
    rcases eval_of_grown h hx with hx' | hx'
    · rcases eval_of_grown h hy with hy' | hy'
      · exact Or.inl (eval_binary_eq_ok.2 ⟨none, none, hx', hy', Or.inr ⟨Or.inl rfl, rfl⟩⟩)
      · exact Or.inl (eval_binary_eq_ok.2 ⟨none, y, hx', hy', Or.inr ⟨Or.inl rfl, rfl⟩⟩)
    · rcases eval_of_grown h hy with hy' | hy'
      · exact Or.inl (eval_binary_eq_ok.2 ⟨x, none, hx', hy', Or.inr ⟨Or.inr rfl, rfl⟩⟩)
      · exact Or.inr (eval_binary_eq_ok.2 ⟨x, y, hx', hy', hvalue⟩)

theorem evalTokens_of_grows (h : Grows t u) {tokens : List Token} {v : Word}
    (hv : evalTokens t address tokens = .ok (some v)) :
    evalTokens u address tokens = .ok (some v) := by
  unfold evalTokens at hv ⊢
  split at hv
  · simp at hv
  · exact eval_of_grows h hv

end Expr

end Mips
