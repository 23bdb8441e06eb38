import Mips.Assembly.Encoding

/-!
# What an encoding keeps of its mnemonic

A mnemonic is selected by its own name, so a statement that was accepted once is accepted again. An
instruction always has as many words as were set aside for it. An operand that cannot be bound is
blamed itself.
-/

namespace Mips

namespace Mnemonic

/-! ### Selection -/

theorem mem_table_of_ofName? {name : String} {m : Mnemonic} (h : ofName? name = some m) :
    m ∈ table := List.mem_of_find?_eq_some h

theorem name_of_ofName? {name : String} {m : Mnemonic} (h : ofName? name = some m) :
    m.name = name := by simpa using List.find?_some h

/-- What is selected is the mnemonic of that name, with as many operands as were counted. -/
theorem select_eq_ok {isa : Isa} {name : String} {count : Nat} {m : Mnemonic}
    (h : select isa name count = .ok m) :
    ofName? name = some m ∧ m.since ≤ isa ∧ m.operands.length = count := by
  unfold select at h
  cases hn : ofName? name with
  | none => simp [hn] at h
  | some m' =>
    rw [hn] at h
    by_cases hs : m'.since ≤ isa
    · by_cases hc : m'.operands.length = count
      · simp only [hs, hc, not_true, if_false, ne_eq, Except.ok.injEq] at h
        subst h
        exact ⟨rfl, hs, hc⟩
      · simp [hs, hc] at h
    · simp [hs] at h

theorem name_of_select {isa : Isa} {name : String} {count : Nat} {m : Mnemonic}
    (h : select isa name count = .ok m) : m.name = name := name_of_ofName? (select_eq_ok h).1

theorem mem_table_of_select {isa : Isa} {name : String} {count : Nat} {m : Mnemonic}
    (h : select isa name count = .ok m) : m ∈ table := mem_table_of_ofName? (select_eq_ok h).1

/-! ### Words -/

theorem length_expand (p : Pseudo) (o : Operands) : (p.expand o).length = p.length := by
  cases p <;> rfl

/-- An instruction has as many words as there is room for. -/
theorem length_words (m : Mnemonic) (o : Operands) : (m.words o).length = m.length := by
  unfold words length
  cases m.meaning with
  | real f => rfl
  | pseudo p => exact length_expand p o

theorem length_bytes (i : Instruction) : i.bytes.length = 4 := rfl

/-- The bytes of an instruction fill its size. -/
theorem length_flatMap_bytes (words : List Instruction) :
    (words.flatMap (·.bytes)).length = 4 * words.length := by
  induction words with
  | nil => rfl
  | cons i rest ih =>
    rw [List.flatMap_cons, List.length_append, ih, length_bytes, List.length_cons]
    omega

theorem drop_flatMap_bytes (words : List Instruction) (n : Nat) (h : n ≤ words.length) :
    (words.flatMap (·.bytes)).drop (4 * n) = (words.drop n).flatMap (·.bytes) := by
  have hlength : ((words.take n).flatMap (·.bytes)).length = 4 * n := by
    rw [length_flatMap_bytes, List.length_take, Nat.min_eq_left h]
  have hsplit : words.flatMap (·.bytes) =
      (words.take n).flatMap (·.bytes) ++ (words.drop n).flatMap (·.bytes) := by
    rw [← List.flatMap_append, List.take_append_drop]
  rw [hsplit, ← hlength, List.drop_left]

end Mnemonic

/-! ### Statements -/

namespace Encoding

/-- A statement whose mnemonic is selected is encoded by binding its operands. -/
theorem ofStatement_eq {isa : Isa} {names : SymbolTable} {address : Word} {name : String}
    {tokens : List Token} {m : Mnemonic}
    (h : Mnemonic.select isa name (Line.splitArgs tokens).length = .ok m) :
    ofStatement isa names address name tokens =
      match bindAll ⟨names, address, address + BitVec.ofNat 32 (4 * m.fieldIndex)⟩ {}
        (m.operands.zip (Line.splitArgs tokens)) with
      | .error problems => .error problems
      | .ok b => .ok ⟨m.words b.operands, b.symbol, m.fieldIndex, b.warnings⟩ := by
  unfold ofStatement
  dsimp only
  generalize Mnemonic.select isa name (Line.splitArgs tokens).length = selected at h
  subst h
  rfl

/-- The operands behind an encoding. -/
theorem ofStatement_eq_ok {isa : Isa} {names : SymbolTable} {address : Word} {name : String}
    {tokens : List Token} {m : Mnemonic} {e : Encoding}
    (h : Mnemonic.select isa name (Line.splitArgs tokens).length = .ok m)
    (he : ofStatement isa names address name tokens = .ok e) :
    ∃ b, bindAll ⟨names, address, address + BitVec.ofNat 32 (4 * m.fieldIndex)⟩ {}
        (m.operands.zip (Line.splitArgs tokens)) = .ok b ∧
      e = ⟨m.words b.operands, b.symbol, m.fieldIndex, b.warnings⟩ := by
  rw [ofStatement_eq h] at he
  split at he
  · simp at he
  · next b hb => exact ⟨b, hb, (Except.ok.inj he).symm⟩

end Encoding

/-! ### Problems of operands -/

/-- Whether a problem is that the instruction is unknown, is of a later revision or does not take as
many operands. -/
def Problem.refusesMnemonic : Problem → Bool
  | .unknownInstruction _ | .unsupported _ _ _ | .operandCount _ _ _ => true
  | _ => false

/-- Whether a problem is that an operand is not what has to stand in its place. -/
def Problem.blamesOperand : Problem → Bool
  | .notRegister _ | .notMemory _ | .expression _ => true
  | _ => false

theorem Problem.refusesMnemonic_of_blamesOperand {problem : Problem}
    (h : problem.blamesOperand = true) : problem.refusesMnemonic = false := by
  cases problem with
  | notRegister | notMemory | expression => rfl
  | _ => simp [blamesOperand] at h

theorem Mnemonic.refusesMnemonic_of_select {isa : Isa} {name : String} {count : Nat}
    {problem : Problem} (h : select isa name count = .error problem) :
    problem.refusesMnemonic = true := by
  unfold select at h
  split at h
  · exact Except.error.inj h ▸ rfl
  · split at h
    · exact Except.error.inj h ▸ rfl
    · split at h
      · exact Except.error.inj h ▸ rfl
      · simp at h

namespace Encoding

variable {p : Place} {b b' : Bound} {problem : Problem}

theorem blamesOperand_register {arg : List Token} (h : register arg = .error problem) :
    problem.blamesOperand = true := by
  unfold register at h
  dsimp only at h
  split at h
  · simp at h
  · exact Except.error.inj h ▸ rfl

theorem blamesOperand_value {arg : List Token} (h : value p arg = .error problem) :
    problem.blamesOperand = true := by
  unfold value at h
  split at h
  · exact Except.error.inj h ▸ rfl
  · split at h
    · exact Except.error.inj h ▸ rfl
    · simp at h

theorem blamesOperand_number {arg : List Token} {field : Field} {adjust : Expr → Word → Word}
    {set : Operands → Word → Operands} (h : number p b arg field adjust set = .error problem) :
    problem.blamesOperand = true := by
  unfold number at h
  split at h
  · next hv => exact Except.error.inj h ▸ blamesOperand_value hv
  · simp at h
  · simp at h

theorem blamesOperand_memory {arg : List Token} (h : memory p arg = .error problem) :
    problem.blamesOperand = true := by
  unfold memory at h
  dsimp only at h
  split at h
  · exact Except.error.inj h ▸ rfl
  · simp at h
  · split at h
    · split at h
      · simp at h
      · exact Except.error.inj h ▸ rfl
    · exact Except.error.inj h ▸ rfl

theorem blamesOperand_bindOperand {kind : OperandKind} {arg : List Token}
    (h : bindOperand p b kind arg = .error problem) : problem.blamesOperand = true := by
  have hregister : ∀ f : Register → Bound, (register arg).map f = .error problem →
      problem.blamesOperand = true := by
    intro f hf
    cases hr : register arg with
    | error q => rw [hr] at hf; exact Except.error.inj hf ▸ blamesOperand_register hr
    | ok r => rw [hr] at hf; simp [Except.map] at hf
  cases kind with
  | rd | rs | rt => exact hregister _ h
  | shift | immediate | offset | target => exact blamesOperand_number h
  | full =>
    simp only [bindOperand] at h
    split at h
    · next hv => exact Except.error.inj h ▸ blamesOperand_value hv
    · simp at h
    · simp at h
  | memory =>
    cases hm : memory p arg with
    | error q =>
      simp only [bindOperand, hm] at h
      exact Except.error.inj h ▸ blamesOperand_memory hm
    | ok r => simp [bindOperand, hm, Except.map] at h

end Encoding

end Mips
