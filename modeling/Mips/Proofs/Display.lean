import Mips.Machine.Disassembly
import Mips.Proofs.Mask

/-!
# What is shown for an instruction is a row of the table

An instruction is shown by its code, and written by a name of the table. Both say the same: what is
shown is the name of a row with the layout and the code of the instruction, and the operands of that
row in their order (`Display.ofInstruction?_eq`). Two rows share one code, so the word zero is shown
as `nop`, and every other word with this code as `sll`.

The codes are few, so that the two are compared code by code.
-/

namespace Mips

/-- What is shown for an operand, where `bits` tells that immediate values are patterns of bits. -/
def OperandKind.shown (bits : Bool) : OperandKind → Shown
  | .rd => .rd
  | .rs => .rs
  | .rt => .rt
  | .shift => .shift
  | .immediate => if bits then .bits else .number
  | .full => .bits
  | .offset => .number
  | .target => .target
  | .memory => .memory

/-- Whether immediate values are patterns of bits rather than numbers: those of the logical
operations and of the load of an upper half. -/
def Format.takesBits : Format → Bool
  | .immediate op => [0x0c, 0x0d, 0x0e, 0x0f].contains op
  | _ => false

namespace Mnemonic

/-- What is shown for an instruction according to its row. -/
def display (m : Mnemonic) : Display :=
  let bits := match m.meaning with
    | .real f => f.takesBits
    | .pseudo _ => false
  ⟨m.name, m.operands.map (·.shown bits)⟩

theorem exists_display (m : Mnemonic) :
    ∃ bits, m.display = ⟨m.name, m.operands.map (·.shown bits)⟩ := ⟨_, rfl⟩

/-- The row with the given layout and code, apart from that of `nop`. -/
def ofFormat? (f : Format) : Option Mnemonic :=
  table.find? fun m => m.meaning = .real f ∧ m.name ≠ "nop"

/-- The row that an instruction is shown by. -/
def ofInstruction? (i : Instruction) : Option Mnemonic :=
  if i.word = 0 then ofName? "nop" else ofFormat? i.format

theorem mem_of_ofFormat? {f : Format} {m : Mnemonic} (h : ofFormat? f = some m) :
    m ∈ table ∧ m.meaning = .real f := by
  have hfound := List.find?_some h
  simp only [decide_eq_true_eq] at hfound
  exact ⟨List.mem_of_find?_eq_some h, hfound.1⟩

/-- Every code of a real instruction is found, with a row that has the operands of all its rows. -/
theorem exists_ofFormat? {m : Mnemonic} (hm : m ∈ table) {f : Format} (hf : m.meaning = .real f) :
    ∃ m', ofFormat? f = some m' ∧ m.operands ⊆ m'.operands := by
  have hall : ∀ m ∈ table, (table.find? fun m' => m'.meaning = m.meaning ∧ m'.name ≠ "nop").any
      (fun m' => m.operands ⊆ m'.operands) = true := by decide +kernel
  have h := hall m hm
  rw [hf] at h
  obtain ⟨m', hfound, hsubset⟩ := (Option.any_eq_true _ _).1 h
  exact ⟨m', hfound, of_decide_eq_true hsubset⟩

/-- The row of an instruction has its layout and code. -/
theorem mem_of_ofInstruction? {i : Instruction} {m : Mnemonic} (h : ofInstruction? i = some m) :
    m ∈ table ∧ m.meaning = .real i.format := by
  unfold ofInstruction? at h
  split at h
  · next hzero =>
    obtain ⟨word⟩ := i
    obtain rfl : word = 0 := hzero
    have hnop : ofName? "nop" = some (real "nop" (.register 0) []) := by decide +kernel
    obtain rfl : real "nop" (.register 0) [] = m := Option.some.inj (hnop.symm.trans h)
    exact ⟨by decide, rfl⟩
  · exact mem_of_ofFormat? h

theorem isSome_ofInstruction? {i : Instruction} {m : Mnemonic} (hm : m ∈ table)
    (h : m.meaning = .real i.format) : (ofInstruction? i).isSome = true := by
  unfold ofInstruction?
  split
  · decide +kernel
  · obtain ⟨m', hm', -⟩ := exists_ofFormat? hm h
    rw [hm', Option.isSome_some]

/-- The row that an encoded instruction is shown by uses all the bits that it was encoded with. -/
theorem and_mask_of_ofInstruction? {m m' : Mnemonic} (hm : m ∈ table) {f : Format}
    (hf : m.meaning = .real f) {o : Operands} (h : o.Only m.operands)
    (hfound : ofInstruction? (.encode f o) = some m') :
    (Instruction.encode f o).word &&& m'.mask = (Instruction.encode f o).word := by
  rw [ofInstruction?, Instruction.format_encode (real_of_mem hm hf).1] at hfound
  split at hfound
  · next hzero =>
    rw [hzero]
    exact BitVec.zero_and
  · obtain ⟨m₀, hm₀, hsubset⟩ := exists_ofFormat? hm hf
    obtain rfl : m₀ = m' := Option.some.inj (hm₀.symm.trans hfound)
    obtain ⟨hmem, hmeaning⟩ := mem_of_ofFormat? hfound
    exact Instruction.and_mask_encode hmem hmeaning (h.mono hsubset)

end Mnemonic

/-! ### Codes -/

namespace Display

open Mnemonic

/-- What holds of every code below `w` holds of every word below `w`. -/
theorem of_lt {P : Word → Prop} {w : Nat} (h : ∀ n : Fin w, P (BitVec.ofNat 32 n)) {x : Word}
    (hx : x.toNat < w) : P x := by
  have hn := h ⟨x.toNat, hx⟩
  rwa [BitVec.ofNat_toNat, BitVec.setWidth_eq] at hn

theorem ofFunct?_eq {funct : Word} (h : funct.toNat < 64) :
    ofFunct? funct = (ofFormat? (.register funct)).map display :=
  of_lt (P := fun funct => ofFunct? funct = (ofFormat? (.register funct)).map display)
    (by decide +kernel) h

theorem ofCondition?_eq {condition : Word} (h : condition.toNat < 32) :
    ofCondition? condition = (ofFormat? (.branch condition)).map display :=
  of_lt (P := fun c => ofCondition? c = (ofFormat? (.branch c)).map display) (by decide +kernel) h

theorem ofOp?_eq {op : Word} (h : op.toNat < 64) : op ≠ 0 → op ≠ 1 →
    ofOp? op = (ofFormat? (if op = 2 ∨ op = 3 then .jump op else .immediate op)).map display :=
  of_lt (P := fun op => op ≠ 0 → op ≠ 1 →
    ofOp? op = (ofFormat? (if op = 2 ∨ op = 3 then .jump op else .immediate op)).map display)
    (by decide +kernel) h

/-- What is shown for an instruction is what the table says. -/
theorem ofInstruction?_eq (i : Instruction) :
    ofInstruction? i = (Mnemonic.ofInstruction? i).map Mnemonic.display := by
  have hfunct := i.word.toNat_bits_lt 0 5
  have hcondition := i.word.toNat_bits_lt 16 20
  have hop := i.word.toNat_bits_lt 26 31
  by_cases hzero : i.word = 0
  · obtain ⟨word⟩ := i
    obtain rfl : word = 0 := hzero
    decide +kernel
  · rw [Mnemonic.ofInstruction?, if_neg hzero, ofInstruction?, Instruction.format]
    split
    · next h =>
      have h : i.op = 0 := h
      rw [if_neg hzero, if_pos h]
      exact ofFunct?_eq hfunct
    · next h =>
      have h : i.op = 1 := h
      rw [if_neg (by rw [h]; decide), if_pos h]
      exact ofCondition?_eq hcondition
    · next h0 h1 =>
      have h0 : i.op ≠ 0 := h0
      have h1 : i.op ≠ 1 := h1
      rw [if_neg h0, if_neg h1]
      exact ofOp?_eq hop h0 h1

end Display

end Mips
