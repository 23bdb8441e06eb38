import Mips.Proofs.Operand
import Mips.Proofs.Word

/-!
# Reading fields back

An instruction gives back the number that was put into it, and every mnemonic with an expression has
the number of the expression in the word that `fieldIndex` counts to; a full value stands in two
words, its upper half first (`read_words`). What an encoding shows of its expression follows
(`ofStatement_expression`).
-/

namespace Mips

/-! ### Fields of an instruction -/

namespace OperandKind

/-- The field of an instruction that the operand goes to. -/
def read (i : Instruction) : OperandKind → Word
  | .shift => i.shift
  | .target => i.target
  | _ => i.imm

/-- What the words of an instruction have in the field of the operand, if it is the number `n`. -/
def parts (n : Word) : OperandKind → List Word
  | .shift => [n.low 5]
  | .target => [n.low 26]
  | .full => [n.bits 16 31, n.bits 0 15]
  | _ => [n.low 16]

theorem parts_zero (kind : OperandKind) :
    kind.parts 0 = if kind = .full then [0, 0] else [0] := by cases kind <;> decide

/-- The layouts that have a field for the operand. -/
def suits (f : Format) : OperandKind → Bool
  | .shift => match f with
    | .register _ => true
    | _ => false
  | .target => match f with
    | .jump _ => true
    | _ => false
  | _ => match f with
    | .immediate _ | .branch _ => true
    | _ => false

end OperandKind

namespace Instruction

theorem shift_encode {f : Format} (h : OperandKind.shift.suits f = true) (o : Operands) :
    (encode f o).shift = o.shift.low 5 := by
  cases f with
  | register _ => exact Word.bits_setBits_self _ _ (by decide) (by decide)
  | immediate _ | jump _ | branch _ => simp [OperandKind.suits] at h

theorem target_encode {f : Format} (h : OperandKind.target.suits f = true) (o : Operands) :
    (encode f o).target = o.imm.low 26 := by
  cases f with
  | jump _ => exact Word.bits_setBits_self _ _ (by decide) (by decide)
  | register _ | immediate _ | branch _ => simp [OperandKind.suits] at h

theorem imm_encode {f : Format} (h : OperandKind.immediate.suits f = true) (o : Operands) :
    (encode f o).imm = o.imm.low 16 := by
  cases f with
  | immediate _ | branch _ => exact Word.bits_setBits_self _ _ (by decide) (by decide)
  | register _ | jump _ => simp [OperandKind.suits] at h

theorem signedImm_eq {i : Instruction} {n : Word} (h : i.imm = n.low 16) :
    i.signedImm =
      if n.toNat % 65536 < 32768 then (n.toNat % 65536 : Int) else n.toNat % 65536 - 65536 := by
  rw [signedImm, h, BitVec.toInt_eq_toNat_cond, BitVec.toNat_setWidth, Word.toNat_low]
  have hmod : n.toNat % 2 ^ 16 % 2 ^ 16 = n.toNat % 65536 := by omega
  rw [hmod]
  split <;> split <;> omega

/-- A layout that suits an operand has its number. -/
theorem read_encode {kind : OperandKind} {f : Format} (hexpression : kind.isExpression = true)
    (hfull : kind ≠ .full) (hsuits : kind.suits f = true) (o : Operands) :
    [kind.read (encode f o)] = kind.parts (kind.slot o) := by
  cases kind with
  | shift => exact congrArg (fun x => [x]) (shift_encode hsuits o)
  | target => exact congrArg (fun x => [x]) (target_encode hsuits o)
  | immediate | offset => exact congrArg (fun x => [x]) (imm_encode hsuits o)
  | full => exact absurd rfl hfull
  | rd | rs | rt | memory => simp [OperandKind.isExpression] at hexpression

end Instruction

/-! ### Fields of a mnemonic -/

namespace Mnemonic

/-- What an expression can be an operand of: an instruction whose layout suits it, a load of a full
value, or an expansion that branches. -/
def Takes (kind : OperandKind) : Meaning → Prop
  | .real f => kind ≠ .full ∧ kind.suits f = true
  | .pseudo p => kind = .full ∧ (p = .li ∨ p = .la) ∨ kind = .offset ∧ p.branchIndex?.isSome = true

instance (kind : OperandKind) : (meaning : Meaning) → Decidable (Takes kind meaning)
  | .real f => inferInstanceAs (Decidable (kind ≠ .full ∧ kind.suits f = true))
  | .pseudo p => inferInstanceAs (Decidable (kind = .full ∧ (p = .li ∨ p = .la) ∨
      kind = .offset ∧ p.branchIndex?.isSome = true))

theorem takes_of_mem : ∀ m ∈ table, ∀ kind ∈ m.operands, kind.isExpression = true →
    Takes kind m.meaning := by decide

/-- The words from `fieldIndex` on have the number of the expression in their fields. -/
theorem read_words {m : Mnemonic} {kind : OperandKind} (hm : m ∈ table) (hkind : kind ∈ m.operands)
    (hexpression : kind.isExpression = true) (o : Operands) :
    ((m.words o).drop m.fieldIndex).map (fun i => kind.read i) = kind.parts (kind.slot o) := by
  have htakes := takes_of_mem m hm kind hkind hexpression
  unfold words fieldIndex
  cases hmeaning : m.meaning with
  | real f =>
    rw [hmeaning] at htakes
    obtain ⟨hfull, hsuits⟩ := htakes
    exact Instruction.read_encode hexpression hfull hsuits o
  | pseudo p =>
    rw [hmeaning] at htakes
    rcases htakes with ⟨rfl, hload⟩ | ⟨rfl, hbranch⟩
    · have hparts : ∀ rt rt' rs', [Instruction.encode .lui { rt := rt, imm := o.imm.bits 16 31 },
          Instruction.encode .ori { rt := rt', rs := rs', imm := o.imm.bits 0 15 }].map
            (fun i => OperandKind.full.read i) = OperandKind.full.parts o.imm := by
        intro rt rt' rs'
        have hupper : Word.low (o.imm.bits 16 31) 16 = o.imm.bits 16 31 := Word.low_bits o.imm
        have hlower : Word.low (o.imm.bits 0 15) 16 = o.imm.bits 0 15 := Word.low_bits o.imm
        simp only [List.map_cons, List.map_nil, OperandKind.read, OperandKind.parts]
        rw [Instruction.imm_encode rfl, Instruction.imm_encode rfl, hupper, hlower]
      rcases hload with rfl | rfl
      · exact hparts _ _ _
      · exact hparts _ _ _
    · cases p with
      | blt | bgt | b | beqz | bnez =>
        exact congrArg (fun x => [x]) (Instruction.imm_encode rfl _)
      | li | la | move | abs | sge | not | neg => simp [Pseudo.branchIndex?] at hbranch

end Mnemonic

/-! ### Fields of a statement -/

/-- A number that was cut to its field has the same parts. -/
theorem OperandKind.parts_kept {kind : OperandKind} (h : kind.isExpression = true) (n : Word) :
    kind.parts (kind.kept n) = kind.parts n := by
  cases kind with
  | full => rfl
  | shift | immediate | offset | target => exact congrArg (fun x => [x]) (Word.low_low n _)
  | rd | rs | rt | memory => simp [isExpression] at h

namespace Encoding

/-- The number for the field of an operand with the expression `e` and the value `v`: zero as long
as there is no value. -/
def fieldNumber (p : Place) (kind : OperandKind) (e : Expr) (v : Option Word) : Word :=
  (v.map fun x => kind.amount p e x).getD 0

/-- The words, the symbol and the warnings of an encoding, by the value of its expression. -/
theorem ofStatement_expression {isa : Isa} {names : SymbolTable} {address : Word} {m : Mnemonic}
    {tokens : List Token} {e : Encoding} {kind : OperandKind} {arg : List Token} {p : Place}
    (hp : p = ⟨names, address, address + BitVec.ofNat 32 (4 * m.fieldIndex)⟩)
    (hselect : Mnemonic.select isa m.name (Line.splitArgs tokens).length = .ok m)
    (he : ofStatement isa names address m.name tokens = .ok e)
    (hx : m.expression? (Line.splitArgs tokens) = some (kind, arg)) :
    ∃ expr v, value p arg = .ok (expr, v) ∧
      e.symbol = (if v.isSome then none else expr.unresolved? names) ∧
      (e.words.drop m.fieldIndex).map (fun i => kind.read i) =
        kind.parts (fieldNumber p kind expr v) ∧
      e.warnings = kind.complaint (fieldNumber p kind expr v) := by
  subst hp
  obtain ⟨b, hb, rfl⟩ := ofStatement_eq_ok hselect he
  have hm := Mnemonic.mem_table_of_select hselect
  have hlength := (Mnemonic.select_eq_ok hselect).2.2
  obtain ⟨hk, init, hzip, -⟩ := Mnemonic.zip_of_expression? hm hlength hx
  have hkind : kind ∈ m.operands :=
    (List.of_mem_zip (hzip ▸ List.mem_append_right _ (List.mem_singleton_self _))).1
  obtain ⟨expr, v, hv, hmade⟩ := bindAll_expression hm hlength hx hb
  refine ⟨expr, v, hv, hmade.symbol, ?_, hmade.warnings⟩
  rw [Mnemonic.read_words hm hkind hk, hmade.slot, OperandKind.parts_kept hk]
  rfl

end Encoding

end Mips
