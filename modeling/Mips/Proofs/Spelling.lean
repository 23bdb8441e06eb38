import Mips.Assembly
import Mips.Proofs.Display
import Mips.Proofs.Field
import Mips.Proofs.Grammar
import Mips.Proofs.Scan

/-!
# How operands are written

The text of an operand is cut into tokens that are bound to what the instruction has in the field of
the operand (`Instruction.exists_operand`). Registers are found by their names again, numbers are
read back with their sign, and what is read fits the field that it came from: nothing is cut.
-/

namespace Mips

/-! ### Numbers -/

namespace Token

/-- The tokens spell the number `v`. -/
inductive Denotes : List Token → Word → Prop where
  | number (v : Word) (text : String) : Denotes [⟨.number v, text⟩] v
  | negative (v : Word) (minus text : String) :
    Denotes [⟨.operator .sub, minus⟩, ⟨.number v, text⟩] (0 - v)

/-- A number is the value of an expression without names. -/
theorem Denotes.parse {tokens : List Token} {v : Word} (h : Denotes tokens v) :
    ∃ e, Expr.parse tokens = .ok e ∧ (∀ symbols address, e.eval symbols address = .ok (some v)) ∧
      ∀ symbols, e.hasLabel symbols = false := by
  cases h with
  | number v text =>
    have hderives : Expr.Derives 4 [⟨.number v, text⟩] (.number v) := .number rfl
    exact ⟨_, (hderives.loosen (Nat.zero_le 4)).parse, fun _ _ => rfl, fun _ => rfl⟩
  | negative v minus text =>
    have hderives : Expr.Derives 4 [⟨.operator .sub, minus⟩, ⟨.number v, text⟩]
        (.binary .sub (.number 0) (.number v)) := .negate rfl (.number rfl)
    exact ⟨_, (hderives.loosen (Nat.zero_le 4)).parse, fun _ _ => rfl, fun _ => rfl⟩

/-- At least one token, and none that divides a statement. -/
def IsArg (tokens : List Token) : Prop :=
  tokens ≠ [] ∧ ∀ t ∈ tokens, t.kind ≠ .comma ∧ t.kind ≠ .assign

theorem Denotes.isArg {tokens : List Token} {v : Word} (h : Denotes tokens v) : IsArg tokens := by
  cases h with
  | number v text => simp [IsArg]
  | negative v minus text => simp [IsArg]

theorem exists_hexadecimal (v : Word) :
    ∃ tokens, Reads v.hex.toList tokens ∧ Denotes tokens v := by
  have hread := Reads.hexadecimal (n := v.toNat) v.isLt
  rw [BitVec.ofNat_toNat, BitVec.setWidth_eq] at hread
  have htext : v.hex.toList = '0' :: 'x' :: Nat.toDigits 16 v.toNat := by simp [Word.hex]
  rw [htext]
  exact ⟨_, hread, .number v _⟩

theorem exists_decimal (v : Word) :
    ∃ tokens, Reads (toString v.toNat).toList tokens ∧ Denotes tokens v := by
  have hread := Reads.decimal (n := v.toNat) v.isLt
  rw [BitVec.ofNat_toNat, BitVec.setWidth_eq] at hread
  rw [Nat.toString_eq_ofList_toDigits, String.toList_ofList]
  exact ⟨_, hread, .number v _⟩

/-- A number with its sign. -/
theorem exists_signed {x : Int} (hlow : -0x80000000 ≤ x) (hhigh : x < 0x80000000) :
    ∃ tokens, Reads (toString x).toList tokens ∧ Denotes tokens (BitVec.ofInt 32 x) := by
  rw [Int.toString_eq_repr, Int.repr_eq_if]
  split
  · next hpos =>
    obtain ⟨tokens, hreads, hdenotes⟩ := exists_decimal (BitVec.ofInt 32 x)
    refine ⟨tokens, ?_, hdenotes⟩
    have hvalue : (BitVec.ofInt 32 x).toNat = x.toNat := by
      rw [BitVec.toNat_ofInt]
      omega
    rw [hvalue] at hreads
    exact hreads
  · next hneg =>
    have hread := Reads.decimal (n := (-x).toNat) (by omega)
    have hvalue : BitVec.ofInt 32 x = 0 - BitVec.ofNat 32 (-x).toNat := by
      have hneg : x = -((-x).toNat : Int) := by omega
      change _ = 0#32 - _
      rw [BitVec.zero_sub, ← BitVec.ofInt_natCast, ← BitVec.ofInt_neg, ← hneg]
    rw [hvalue, String.toList_append, Nat.toList_repr]
    exact ⟨_, hread.minus, .negative _ "-" _⟩

end Token

/-! ### Registers -/

namespace Register

theorem ofName?_names : ∀ n : Fin 32, ofName? (names.get n) = some (ofNat n) ∧
    (names.get n).toList ≠ [] ∧ (names.get n).toList.all isNameChar = true := by decide +kernel

/-- The name that a register is written with is found again. -/
theorem exists_name {r : Register} (h : r.number.toNat < 32) :
    ∃ name text, Token.Reads r.text.toList [⟨.register name, text⟩] ∧ ofName? name = some r := by
  obtain ⟨hname, hne, hchars⟩ := ofName?_names ⟨r.number.toNat, h⟩
  have htext : r.text = "$" ++ names.get ⟨r.number.toNat, h⟩ := by
    rw [text, List.getElem?_eq_getElem h]
    rfl
  have hself : ofNat r.number.toNat = r := by
    rw [ofNat, BitVec.ofNat_toNat, BitVec.setWidth_eq]
  have hreads := Token.Reads.register hne (List.all_eq_true.1 hchars)
  rw [String.ofList_toList] at hreads
  rw [htext, String.toList_append]
  exact ⟨_, _, hreads, hname.trans (congrArg some hself)⟩

end Register

/-! ### Operands -/

namespace Encoding

open Token

variable (p : Place) (b : Bound)

theorem register_of_name {name text : String} {r : Register} (h : Register.ofName? name = some r) :
    register [⟨.register name, text⟩] = .ok r := by
  simp only [register, h]

/-- A number that its field holds is put there, and nothing else happens. -/
theorem number_of_denotes {arg : List Token} {v x : Word} (h : Denotes arg v) {field : Field}
    (hholds : field.holds v = true) (hcut : field.cut v = x) {adjust : Expr → Word → Word}
    (hadjust : ∀ e, (∀ symbols, e.hasLabel symbols = false) → adjust e v = v)
    (set : Operands → Word → Operands) :
    number p b arg field adjust set = .ok { b with operands := set b.operands x } := by
  obtain ⟨e, hparse, heval, hlabel⟩ := h.parse
  have hvalue : value p arg = .ok (e, some v) := by simp only [value, hparse, heval]
  simp only [number, hvalue, hadjust e hlabel, Bound.put, hholds, hcut, if_true]

/-- A number and a register in parentheses are an operand in memory. -/
theorem memory_of_denotes {offset : List Token} {v : Word} (h : Denotes offset v)
    (hfits : v.fits 16 = true) {name left text right : String} {r : Register}
    (hname : Register.ofName? name = some r) :
    memory p (offset ++ [⟨.leftParen, left⟩, ⟨.register name, text⟩, ⟨.rightParen, right⟩]) =
      .ok (v.low 16, r) := by
  have hparts : memoryParts
      (offset ++ [⟨.leftParen, left⟩, ⟨.register name, text⟩, ⟨.rightParen, right⟩]) =
        some (offset, r) := by
    simp [memoryParts, hname]
  obtain ⟨e, hparse, heval, -⟩ := h.parse
  have hvalue : Expr.evalTokens p.symbols p.address offset = .ok (some v) := by
    simp only [Expr.evalTokens, hparse, heval]
  unfold memory
  rw [hparts]
  cases offset with
  | nil => exact absurd rfl h.isArg.1
  | cons t offset => simp only [hvalue, hfits, if_true]

end Encoding

namespace Instruction

/-! ### Fields that are read back -/

variable (i : Instruction)

theorem number_lt : i.rd.number.toNat < 32 ∧ i.rs.number.toNat < 32 ∧ i.rt.number.toNat < 32 := by
  have hlt : ∀ lo hi, hi - lo = 4 →
      (Register.ofWord (i.word.bits lo hi)).number.toNat < 32 := by
    intro lo hi h
    have hbits := i.word.toNat_bits_lt lo hi
    rw [h] at hbits
    rw [Register.ofWord, BitVec.toNat_setWidth]
    omega
  exact ⟨hlt 11 15 rfl, hlt 21 25 rfl, hlt 16 20 rfl⟩

theorem signedImm_bounds : -32768 ≤ i.signedImm ∧ i.signedImm < 32768 :=
  ⟨BitVec.le_toInt (i.imm.setWidth 16), BitVec.toInt_lt⟩

theorem fits_signedImm : Word.fits (BitVec.ofInt 32 i.signedImm) 16 = true := by
  obtain ⟨hlow, hhigh⟩ := i.signedImm_bounds
  have hvalue : (BitVec.ofInt 32 i.signedImm).toInt = i.signedImm := by
    rw [BitVec.toInt_ofInt]
    exact Int.bmod_eq_of_le (by omega) (by omega)
  have hsigned : Word.fitsSigned (BitVec.ofInt 32 i.signedImm) 16 = true := by
    simp [Word.fitsSigned, hvalue, hlow, hhigh]
  rw [Word.fits, hsigned, Bool.or_true]

theorem low_signedImm : Word.low (BitVec.ofInt 32 i.signedImm) 16 = i.imm := by
  have himm : i.imm = i.imm.low 16 := (Word.low_bits i.word).symm
  have hlt := i.word.toNat_bits_lt 0 15
  apply BitVec.eq_of_toNat_eq
  rw [Word.toNat_low, BitVec.toNat_ofInt, signedImm_eq himm]
  change i.imm.toNat < _ at hlt
  split <;> omega

/-- What a range of bits holds fits a field of that width without sign. -/
theorem fitsUnsigned_bits (x : Word) (lo hi : Nat) :
    (x.bits lo hi).fitsUnsigned (hi - lo + 1) = true :=
  (Word.fitsUnsigned_iff _ _).2 (x.toNat_bits_lt lo hi)

theorem fits_imm : i.imm.fits 16 = true := by
  have hunsigned : i.imm.fitsUnsigned 16 = true := fitsUnsigned_bits i.word 0 15
  rw [Word.fits, hunsigned, Bool.true_or]

/-- The text of a register is bound to it, whichever operand it is. -/
theorem exists_register {r : Register} (h : r.number.toNat < 32) (kind : OperandKind)
    (set : Operands → Register → Operands)
    (hkind : ∀ p b arg, Encoding.bindOperand p b kind arg =
      (Encoding.register arg).map fun r => { b with operands := set b.operands r }) :
    ∃ tokens, Token.Reads r.text.toList tokens ∧ Token.IsArg tokens ∧
      ∀ p b, Encoding.bindOperand p b kind tokens =
        .ok { b with operands := set b.operands r } := by
  obtain ⟨name, text, hreads, hname⟩ := Register.exists_name h
  refine ⟨_, hreads, by simp [Token.IsArg], fun p b => ?_⟩
  rw [hkind, Encoding.register_of_name hname]
  rfl

/-- The text of an operand is bound to what the instruction has in its field. -/
theorem exists_operand (bits : Bool) (kind : OperandKind) :
    ∃ tokens, Token.Reads (i.shownText (kind.shown bits)).toList tokens ∧ Token.IsArg tokens ∧
      ∀ p b, Encoding.bindOperand p b kind tokens =
        .ok { b with operands := i.fill b.operands kind } := by
  -- a number without label is the same as an offset or a target
  have hplain : ∀ (p : Encoding.Place) (v : Word) (e : Expr),
      (∀ symbols, e.hasLabel symbols = false) → Encoding.branchOffset p e v = v ∧
        Encoding.jumpTarget p e v = v := by
    intro p v e hlabel
    simp [Encoding.branchOffset, Encoding.jumpTarget, hlabel]
  obtain ⟨hlow, hhigh⟩ := i.signedImm_bounds
  obtain ⟨signed, hsigned, hsignedValue⟩ :=
    Token.exists_signed (x := i.signedImm) (by omega) (by omega)
  obtain ⟨hrd, hrs, hrt⟩ := i.number_lt
  cases kind with
  | rd => exact exists_register hrd .rd (fun o r => { o with rd := r }) fun _ _ _ => rfl
  | rs => exact exists_register hrs .rs (fun o r => { o with rs := r }) fun _ _ _ => rfl
  | rt => exact exists_register hrt .rt (fun o r => { o with rt := r }) fun _ _ _ => rfl
  | shift =>
    obtain ⟨tokens, hreads, hdenotes⟩ := Token.exists_decimal i.shift
    have hholds : Field.shift.holds i.shift = true := fitsUnsigned_bits i.word 6 10
    refine ⟨tokens, hreads, hdenotes.isArg, fun p b => ?_⟩
    exact Encoding.number_of_denotes p b hdenotes hholds (Word.low_bits i.word) (fun _ _ => rfl) _
  | immediate =>
    cases bits with
    | false =>
      have hholds : Field.immediate.holds (BitVec.ofInt 32 i.signedImm) = true := i.fits_signedImm
      refine ⟨signed, hsigned, hsignedValue.isArg, fun p b => ?_⟩
      exact Encoding.number_of_denotes p b hsignedValue hholds i.low_signedImm (fun _ _ => rfl) _
    | true =>
      obtain ⟨tokens, hreads, hdenotes⟩ := Token.exists_hexadecimal i.imm
      have hholds : Field.immediate.holds i.imm = true := i.fits_imm
      refine ⟨tokens, hreads, hdenotes.isArg, fun p b => ?_⟩
      exact Encoding.number_of_denotes p b hdenotes hholds (Word.low_bits i.word) (fun _ _ => rfl) _
  | full =>
    obtain ⟨tokens, hreads, hdenotes⟩ := Token.exists_hexadecimal i.imm
    obtain ⟨e, hparse, heval, -⟩ := hdenotes.parse
    refine ⟨tokens, hreads, hdenotes.isArg, fun p b => ?_⟩
    simp only [Encoding.bindOperand, Encoding.value, hparse, heval, fill]
  | offset =>
    have hholds : Field.offset.holds (BitVec.ofInt 32 i.signedImm) = true := i.fits_signedImm
    refine ⟨signed, hsigned, hsignedValue.isArg, fun p b => ?_⟩
    exact Encoding.number_of_denotes p b hsignedValue hholds i.low_signedImm
      (fun e he => (hplain p _ e he).1) _
  | target =>
    obtain ⟨tokens, hreads, hdenotes⟩ := Token.exists_hexadecimal i.target
    have hholds : Field.target.holds i.target = true := fitsUnsigned_bits i.word 0 25
    refine ⟨tokens, hreads, hdenotes.isArg, fun p b => ?_⟩
    exact Encoding.number_of_denotes p b hdenotes hholds (Word.low_bits i.word)
      (fun e he => (hplain p _ e he).2) _
  | memory =>
    obtain ⟨name, text, hreads, hname⟩ := Register.exists_name hrs
    have hparens := (hreads.append Token.Reads.nil.rightParen (by decide)).leftParen
    have htext : (i.shownText (OperandKind.memory.shown bits)).toList =
        (toString i.signedImm).toList ++ '(' :: (i.rs.text.toList ++ [')']) := by
      simp [OperandKind.shown, shownText]
    rw [htext]
    refine ⟨signed ++ [⟨.leftParen, "("⟩, ⟨.register name, text⟩, ⟨.rightParen, ")"⟩],
      hsigned.append hparens (by decide), ⟨by simp, fun t ht => ?_⟩, fun p b => ?_⟩
    · rcases List.mem_append.1 ht with ht | ht
      · exact hsignedValue.isArg.2 t ht
      · simp only [List.mem_cons, List.not_mem_nil, or_false] at ht
        rcases ht with rfl | rfl | rfl <;> simp
    · rw [Encoding.bindOperand, Encoding.memory_of_denotes p hsignedValue i.fits_signedImm hname,
        i.low_signedImm]
      rfl

end Instruction

end Mips
