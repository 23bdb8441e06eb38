import Mathlib.Algebra.Ring.Nat
import Mips.Proofs.Evaluation

/-!
# What decides about the value of an expression

The parts of an expression alone say what becomes of it. A string in it, or a division of known
numbers by zero, is an error wherever it stands. Otherwise a name without address leaves the whole
expression without a value, and only without such a name there is one. Operators are defined on
words; what they give is the result on integers, cut to 32 bits (`Operator.apply_eq_some_iff`).

    a string, or a division of known numbers by zero      error
    else, a name without address                          no value yet
    else                                                  the integer result modulo 2 ^ 32
-/

namespace Mips

/-! ### Operators -/

namespace Operator

/-- Whether the operator divides. -/
def divides : Operator → Bool
  | div | mod => true
  | add | sub | mul | and | or | xor => false

/-- The result of an operator as an integer of any size. Words are numbers with a sign, and a
division goes towards zero; for bits they are the digits of a number without sign. -/
def exact : Operator → Word → Word → Int
  | add, x, y => x.toInt + y.toInt
  | sub, x, y => x.toInt - y.toInt
  | mul, x, y => x.toInt * y.toInt
  | div, x, y => x.toInt.tdiv y.toInt
  | mod, x, y => x.toInt.tmod y.toInt
  | and, x, y => (x.toNat &&& y.toNat : Nat)
  | or, x, y => (x.toNat ||| y.toNat : Nat)
  | xor, x, y => (x.toNat ^^^ y.toNat : Nat)

theorem apply_eq_none_iff {op : Operator} {x y : Word} :
    op.apply x y = none ↔ op.divides = true ∧ y = 0 := by
  cases op with
  | div | mod => simp [apply, divides]
  | add | sub | mul | and | or | xor => simp [apply, divides]

theorem sdiv_eq_ofInt (x y : Word) : x.sdiv y = BitVec.ofInt 32 (x.toInt.tdiv y.toInt) := by
  apply BitVec.eq_of_toInt_eq
  rw [BitVec.toInt_sdiv, BitVec.toInt_ofInt]

theorem srem_eq_ofInt (x y : Word) : x.srem y = BitVec.ofInt 32 (x.toInt.tmod y.toInt) := by
  rw [← BitVec.toInt_srem, BitVec.ofInt_toInt]

theorem bits_eq_ofInt {x : Word} {n : Nat} (h : x.toNat = n) : x = BitVec.ofInt 32 n := by
  rw [BitVec.ofInt_natCast, ← h, BitVec.ofNat_toNat, BitVec.setWidth_eq]

/-- An operator that does not divide by zero gives the integer result, cut to 32 bits. -/
theorem apply_of_ne_zero {op : Operator} {x y : Word} (h : op.divides = true → y ≠ 0) :
    op.apply x y = some (BitVec.ofInt 32 (op.exact x y)) := by
  have hsum : ∀ n : Int, BitVec.ofInt 32 (x.toInt + n) = x + BitVec.ofInt 32 n := by
    intro n
    rw [BitVec.ofInt_add, BitVec.ofInt_toInt]
  cases op with
  | add => rw [exact, hsum, BitVec.ofInt_toInt, apply]
  | sub =>
    rw [exact, Int.sub_eq_add_neg, hsum, BitVec.ofInt_neg, BitVec.ofInt_toInt, apply,
      BitVec.sub_eq_add_neg]
  | mul => rw [exact, BitVec.ofInt_mul, BitVec.ofInt_toInt, BitVec.ofInt_toInt, apply]
  | div => rw [apply, if_neg (h rfl), sdiv_eq_ofInt, exact]
  | mod => rw [apply, if_neg (h rfl), srem_eq_ofInt, exact]
  | and => exact congrArg some (bits_eq_ofInt (BitVec.toNat_and x y))
  | or => exact congrArg some (bits_eq_ofInt (BitVec.toNat_or x y))
  | xor => exact congrArg some (bits_eq_ofInt (BitVec.toNat_xor x y))

/-- An operator gives the integer result, cut to 32 bits, unless it divides by zero. -/
theorem apply_eq_some_iff {op : Operator} {x y z : Word} :
    op.apply x y = some z ↔
      (op.divides = true → y ≠ 0) ∧ z = BitVec.ofInt 32 (op.exact x y) := by
  constructor
  · intro hz
    have hne : op.divides = true → y ≠ 0 := by
      intro hdivides hzero
      rw [apply_eq_none_iff.2 ⟨hdivides, hzero⟩] at hz
      simp at hz
    refine ⟨hne, ?_⟩
    rw [apply_of_ne_zero hne] at hz
    exact (Option.some.inj hz).symm
  · rintro ⟨hne, rfl⟩
    exact apply_of_ne_zero hne

end Operator

/-! ### Parts of an expression -/

namespace Expr

/-- The expressions that an expression is made of, itself among them. -/
def parts : Expr → List Expr
  | number v => [number v]
  | string s => [string s]
  | symbol name => [symbol name]
  | here => [here]
  | binary op lhs rhs => binary op lhs rhs :: (lhs.parts ++ rhs.parts)

/-- Every name in the expression has an address. -/
def Known (symbols : SymbolTable) (e : Expr) : Prop :=
  ∀ name ∈ e.names, (symbols.address? name).isSome = true

/-- A part of the expression can have no value: a string, or a division of known numbers by zero. -/
def Broken (symbols : SymbolTable) (address : Word) (e : Expr) : Prop :=
  (∃ s, string s ∈ e.parts) ∨
    ∃ op lhs rhs, binary op lhs rhs ∈ e.parts ∧ op.divides = true ∧
      lhs.Known symbols ∧ rhs.Known symbols ∧ rhs.eval symbols address = .ok (some 0)

/-- The expression refers to an address: to that of its line or to a label. -/
def HasAddress (symbols : SymbolTable) (e : Expr) : Prop :=
  here ∈ e.parts ∨ ∃ name, symbol name ∈ e.parts ∧ symbols.isLabel name = true

/-- The expression has the value `v`: names and the line stand for their addresses, and operators
give their integer results, cut to 32 bits. -/
inductive HasValue (symbols : SymbolTable) (address : Word) : Expr → Word → Prop where
  | number (v : Word) : HasValue symbols address (number v) v
  | symbol {name : String} {v : Word} (h : symbols.address? name = some v) :
    HasValue symbols address (symbol name) v
  | here : HasValue symbols address here address
  | binary {op : Operator} {lhs rhs : Expr} {x y : Word} (hx : HasValue symbols address lhs x)
    (hy : HasValue symbols address rhs y) (hzero : op.divides = true → y ≠ 0) :
    HasValue symbols address (binary op lhs rhs) (BitVec.ofInt 32 (op.exact x y))

/-- Whether the expression only adds, subtracts and multiplies. -/
def isRing : Expr → Bool
  | binary op lhs rhs => (op = .add || op = .sub || op = .mul) && lhs.isRing && rhs.isRing
  | number _ | string _ | symbol _ | here => true

/-- The value of a sum, difference or product as an integer of any size, where numbers and addresses
have no sign. -/
def integer (symbols : SymbolTable) (address : Word) : Expr → Int
  | number v => v.toNat
  | string _ => 0
  | symbol name => (((symbols.address? name).getD 0).toNat : Nat)
  | here => address.toNat
  | binary .add lhs rhs => lhs.integer symbols address + rhs.integer symbols address
  | binary .sub lhs rhs => lhs.integer symbols address - rhs.integer symbols address
  | binary .mul lhs rhs => lhs.integer symbols address * rhs.integer symbols address
  | binary _ _ _ => 0

variable {symbols : SymbolTable} {address : Word}

theorem mem_names_iff {name : String} (e : Expr) : name ∈ e.names ↔ symbol name ∈ e.parts := by
  induction e with
  | number v | string s | here => simp [names, parts]
  | symbol other => simp [names, parts]
  | binary op lhs rhs ihl ihr => simp [names, parts, ihl, ihr]

theorem known_iff {e : Expr} : e.Known symbols ↔ e.unresolved? symbols = none := by
  rw [unresolved?_eq_find?, List.find?_eq_none]
  simp [Known, Option.isSome_iff_ne_none]

/-- An expression without error has a value exactly if every name in it has an address. -/
theorem known_iff_isSome {e : Expr} {v : Option Word} (h : e.eval symbols address = .ok v) :
    e.Known symbols ↔ v.isSome = true := by
  rw [known_iff, ← unresolved?_of_eval symbols address h, Option.isNone_iff_eq_none]

theorem hasLabel_iff (e : Expr) : e.hasLabel symbols = true ↔ e.HasAddress symbols := by
  unfold HasAddress
  induction e with
  | number v | string s => simp [hasLabel, parts]
  | symbol name => simp [hasLabel, parts]
  | here => simp [hasLabel, parts]
  | binary op lhs rhs ihl ihr =>
    simp only [hasLabel, Bool.or_eq_true, ihl, ihr, parts, List.mem_cons, List.mem_append]
    grind

/-! ### Errors -/

theorem broken_binary {op : Operator} {lhs rhs : Expr} :
    (binary op lhs rhs).Broken symbols address ↔
      lhs.Broken symbols address ∨ rhs.Broken symbols address ∨
        op.divides = true ∧ lhs.Known symbols ∧ rhs.Known symbols ∧
          rhs.eval symbols address = .ok (some 0) := by
  simp only [Broken, parts, List.mem_cons, List.mem_append, reduceCtorEq, false_or, binary.injEq]
  constructor
  · rintro (⟨s, hs | hs⟩ | ⟨op', l, r, ⟨rfl, rfl, rfl⟩ | hpart | hpart, hdivision⟩)
    · exact Or.inl (Or.inl ⟨s, hs⟩)
    · exact Or.inr (Or.inl (Or.inl ⟨s, hs⟩))
    · exact Or.inr (Or.inr hdivision)
    · exact Or.inl (Or.inr ⟨op', l, r, hpart, hdivision⟩)
    · exact Or.inr (Or.inl (Or.inr ⟨op', l, r, hpart, hdivision⟩))
  · rintro ((⟨s, hs⟩ | ⟨op', l, r, hpart, hdivision⟩) |
      (⟨s, hs⟩ | ⟨op', l, r, hpart, hdivision⟩) | hdivision)
    · exact Or.inl ⟨s, Or.inl hs⟩
    · exact Or.inr ⟨op', l, r, Or.inr (Or.inl hpart), hdivision⟩
    · exact Or.inl ⟨s, Or.inr hs⟩
    · exact Or.inr ⟨op', l, r, Or.inr (Or.inr hpart), hdivision⟩
    · exact Or.inr ⟨op, lhs, rhs, Or.inl ⟨rfl, rfl, rfl⟩, hdivision⟩

/-- An operator passes on the errors of its operands and adds a division by zero. -/
theorem eval_binary_error_iff {op : Operator} {lhs rhs : Expr} :
    (∃ cause, (binary op lhs rhs).eval symbols address = .error cause) ↔
      (∃ cause, lhs.eval symbols address = .error cause) ∨
        (∃ cause, rhs.eval symbols address = .error cause) ∨
        op.divides = true ∧ lhs.Known symbols ∧ rhs.Known symbols ∧
          rhs.eval symbols address = .ok (some 0) := by
  rw [eval]
  cases hx : lhs.eval symbols address with
  | error cause => simp
  | ok x =>
    cases hy : rhs.eval symbols address with
    | error cause => simp
    | ok y =>
      rw [known_iff_isSome hx, known_iff_isSome hy]
      rcases x with _ | x
      · simp
      rcases y with _ | y
      · simp
      cases hz : op.apply x y with
      | none =>
        obtain ⟨hdivides, hzero⟩ := Operator.apply_eq_none_iff.1 hz
        simp only [hz]
        simp [hdivides, hzero]
      | some z =>
        have hne := (Operator.apply_eq_some_iff.1 hz).1
        simpa [hz] using hne

/-- An expression is an error exactly if one of its parts is. -/
theorem eval_error_iff {e : Expr} :
    (∃ cause, e.eval symbols address = .error cause) ↔ e.Broken symbols address := by
  induction e with
  | number v | symbol name | here => simp [eval, Broken, parts]
  | string s => simp [eval, Broken, parts]
  | binary op lhs rhs ihl ihr => rw [eval_binary_error_iff, broken_binary, ihl, ihr]

/-! ### Values -/

/-- The value of an expression is the one that its parts give. -/
theorem eval_eq_some_iff {e : Expr} {v : Word} :
    e.eval symbols address = .ok (some v) ↔ e.HasValue symbols address v := by
  constructor
  · intro h
    induction e generalizing v with
    | number x =>
      obtain rfl : x = v := by simpa [eval] using h
      exact .number x
    | string s => simp [eval] at h
    | symbol name => exact .symbol (Except.ok.inj h)
    | here =>
      obtain rfl : address = v := by simpa [eval] using h
      exact .here
    | binary op lhs rhs ihl ihr =>
      obtain ⟨x, y, hx, hy, ⟨a, b, c, rfl, rfl, hc, hv⟩ | ⟨-, hv⟩⟩ := eval_binary_eq_ok.1 h
      · obtain ⟨hzero, rfl⟩ := Operator.apply_eq_some_iff.1 hc
        obtain rfl := Option.some.inj hv
        exact .binary (ihl hx) (ihr hy) hzero
      · simp at hv
  · intro h
    induction h with
    | number x => rfl
    | symbol hname => exact congrArg Except.ok hname
    | here => rfl
    | binary hx hy hzero ihx ihy =>
      exact eval_binary_eq_ok.2 ⟨_, _, ihx, ihy,
        Or.inl ⟨_, _, _, rfl, rfl, Operator.apply_of_ne_zero hzero, rfl⟩⟩

/-- Sums, differences and products may be cut once at the end as well. -/
theorem HasValue.eq_ofInt {e : Expr} {v : Word} (h : e.HasValue symbols address v)
    (hring : e.isRing = true) : v = BitVec.ofInt 32 (e.integer symbols address) := by
  have hword : ∀ x : Word, x = BitVec.ofInt 32 x.toNat := by
    intro x
    rw [BitVec.ofInt_natCast, BitVec.ofNat_toNat, BitVec.setWidth_eq]
  induction h with
  | number x => exact hword x
  | symbol hname =>
    rw [integer, hname]
    exact hword _
  | here => exact hword address
  | @binary op lhs rhs x y hx hy hzero ihx ihy =>
    simp only [isRing, Bool.and_eq_true, Bool.or_eq_true, decide_eq_true_eq] at hring
    obtain ⟨⟨hop, hl⟩, hr⟩ := hring
    have hx' := ihx hl
    have hy' := ihy hr
    rcases hop with (rfl | rfl) | rfl
    · rw [Operator.exact, integer, BitVec.ofInt_add, BitVec.ofInt_add, BitVec.ofInt_toInt,
        BitVec.ofInt_toInt, ← hx', ← hy']
    · rw [Operator.exact, integer, Int.sub_eq_add_neg, Int.sub_eq_add_neg, BitVec.ofInt_add,
        BitVec.ofInt_add, BitVec.ofInt_neg, BitVec.ofInt_neg, BitVec.ofInt_toInt,
        BitVec.ofInt_toInt, ← hx', ← hy']
    · rw [Operator.exact, integer, BitVec.ofInt_mul, BitVec.ofInt_mul, BitVec.ofInt_toInt,
        BitVec.ofInt_toInt, ← hx', ← hy']

/-! ### Every expression -/

/-- An expression is an error exactly if a part of it is broken. Without an error it waits for the
first of its names that has no address, and has a value if there is none: the integer result of its
operators, cut to 32 bits after each of them, and for sums, differences and products also at the
end. -/
theorem eval_classified (symbols : SymbolTable) (address : Word) (e : Expr) :
    ((∃ cause, e.eval symbols address = .error cause) ↔ e.Broken symbols address) ∧
    (∀ v, e.eval symbols address = .ok v →
      (v = none ↔ ∃ name, symbol name ∈ e.parts ∧ symbols.address? name = none) ∧
      (v = none ↔ ∃ name, e.unresolved? symbols = some name)) ∧
    (∀ name, e.unresolved? symbols = some name ↔
      symbols.address? name = none ∧ ∃ before after, e.names = before ++ name :: after ∧
        ∀ other ∈ before, (symbols.address? other).isSome = true) ∧
    (∀ v, e.eval symbols address = .ok (some v) ↔ e.HasValue symbols address v) ∧
    ∀ v, e.eval symbols address = .ok (some v) → e.isRing = true →
      (v.toNat : Int) = e.integer symbols address % 0x100000000 := by
  refine ⟨eval_error_iff, ?_, ?_, fun v => eval_eq_some_iff, ?_⟩
  · intro v hv
    have hknown := known_iff_isSome hv
    refine ⟨?_, ?_⟩
    · rw [← Option.not_isSome_iff_eq_none, ← hknown, Known]
      simp [mem_names_iff]
    · rw [← Option.not_isSome_iff_eq_none, ← hknown, known_iff]
      exact Option.ne_none_iff_exists'
  · intro name
    rw [unresolved?_eq_find?, List.find?_eq_some_iff_append]
    simp [Option.isSome_iff_ne_none]
  · intro v hv hring
    rw [(eval_eq_some_iff.1 hv).eq_ofInt hring, BitVec.toNat_ofInt]
    omega

/-- A division by zero is broken and one by a name without address waits; the least number divided by
minus one is itself, and a difference below zero wraps around. -/
theorem divisions_classified :
    (binary .div (number 4) (binary .sub (number 2) (number 2))).Broken .empty 0 ∧
      (∃ name, (binary .div (number 4) (symbol "later")).unresolved? .empty = some name) ∧
      (binary .div (number 0x80000000) (number 0xffffffff)).HasValue .empty 0 0x80000000 ∧
      ((0xfffffffe : Word).toNat : Int) =
        (binary .sub (number 0x3) (number 0x5)).integer .empty 0 % 0x100000000 := by
  refine ⟨?_, ?_, ?_, ?_⟩
  · exact (eval_classified .empty 0 _).1.1 ⟨.divisionByZero, by decide⟩
  · exact ((eval_classified .empty 0 _).2.1 none (by decide)).2.1 rfl
  · exact ((eval_classified .empty 0 _).2.2.2.1 0x80000000).1 (by decide)
  · exact (eval_classified .empty 0 _).2.2.2.2 _ (by decide) (by decide)

end Expr

end Mips
