import Mathlib.Data.Bool.Basic
import Mathlib.Data.List.Basic
import Mips.Machine.Mnemonic
import Mips.Proofs.Word

/-!
# The bits that a mnemonic uses

A mnemonic uses the bits of its code and of the fields that its operands go to (`Mnemonic.mask`).
What an instruction has in the fields of the operands gives the instruction again, with all other
bits cleared (`encode_operandsOf`), and an instruction with no other operands has no other bits
(`and_mask_encode`). The operation tells the layout, so an instruction has one layout and code at
most (`hasFormat_iff`).

    bits   31─26  25─21  20─16  15─11  10─6   5─0
    sll    op            rt     rd     shift  funct
    jr     op     rs                          funct
    lw     op     rs     rt     imm ─────────────▶
-/

namespace Mips

namespace Word

/-- The word whose bits from `lo` to `hi` are set. -/
def range (lo hi : Nat) : Word := lowMask (hi - lo + 1) <<< lo

theorem getLsbD_range {lo hi : Nat} (h : lo ≤ hi) (i : Nat) :
    (range lo hi).getLsbD i = decide (i < 32 ∧ lo ≤ i ∧ i ≤ hi) := by
  simp only [range, BitVec.getLsbD_shiftLeft, getLsbD_lowMask]
  grind

/-- All bits of `x` are in `mask`. -/
def Within (mask x : Word) : Prop := ∀ i, x.getLsbD i = true → mask.getLsbD i = true

theorem Within.and_eq {mask x : Word} (h : Within mask x) : x &&& mask = x := by
  apply BitVec.eq_of_getLsbD_eq
  intro i hi
  rw [BitVec.getLsbD_and]
  cases hx : x.getLsbD i with
  | false => rfl
  | true => rw [h i hx]; rfl

theorem within_zero (mask : Word) : Within mask 0 := by
  intro i hi
  simp at hi

theorem within_or_left (mask x : Word) : Within (mask ||| x) mask := by
  intro i hi
  rw [BitVec.getLsbD_or, hi, Bool.true_or]

theorem within_or_right (mask x : Word) : Within (mask ||| x) x := by
  intro i hi
  rw [BitVec.getLsbD_or, hi, Bool.or_true]

theorem Within.trans {x y z : Word} (h : Within x y) (h' : Within y z) : Within x z :=
  fun i hi => h i (h' i hi)

/-- A range that is set stays in the mask if it lies there, or if there is nothing to set. -/
theorem Within.setBits {mask x v : Word} {lo hi : Nat} (hle : lo ≤ hi) (h : Within mask x)
    (hv : v = 0 ∨ Within mask (range lo hi)) : Within mask (x.setBits lo hi v) := by
  intro i hi'
  rw [getLsbD_setBits x v hle] at hi'
  split at hi'
  · next hrange =>
    rcases hv with rfl | hv
    · simp at hi'
    · refine hv i ?_
      rw [Bool.and_eq_true, decide_eq_true_eq] at hi'
      rw [getLsbD_range hle]
      exact decide_eq_true ⟨hi'.1, hrange⟩
  · exact h i hi'

end Word

open Word

/-! ### Masks -/

/-- The bits of the code. -/
def Format.mask : Format → Word
  | .register _ => range 26 31 ||| range 0 5
  | .immediate _ | .jump _ => range 26 31
  | .branch _ => range 26 31 ||| range 16 20

/-- The bits of the fields that an operand goes to. A full value goes to no field as a whole. -/
def OperandKind.mask : OperandKind → Word
  | .rd => range 11 15
  | .rs => range 21 25
  | .rt => range 16 20
  | .shift => range 6 10
  | .immediate | .offset => range 0 15
  | .target => range 0 25
  | .memory => range 21 25 ||| range 0 15
  | .full => 0

namespace Mnemonic

/-- The bits of operands, besides those of `mask`. -/
def addMasks (mask : Word) (kinds : List OperandKind) : Word :=
  kinds.foldl (fun mask kind => mask ||| kind.mask) mask

/-- The bits that a real instruction uses: its code and its operands. -/
def mask (m : Mnemonic) : Word :=
  match m.meaning with
  | .real f => addMasks f.mask m.operands
  | .pseudo _ => 0

theorem mask_real {m : Mnemonic} {f : Format} (h : m.meaning = .real f) :
    m.mask = addMasks f.mask m.operands := by rw [mask, h]

theorem within_addMasks : ∀ (kinds : List OperandKind) (mask : Word),
    Within (addMasks mask kinds) mask ∧ ∀ kind ∈ kinds, Within (addMasks mask kinds) kind.mask
  | [], mask => ⟨fun _ hi => hi, by simp⟩
  | kind :: kinds, mask => by
    obtain ⟨hmask, hkinds⟩ := within_addMasks kinds (mask ||| kind.mask)
    refine ⟨hmask.trans (within_or_left _ _), fun k hk => ?_⟩
    rcases List.mem_cons.1 hk with rfl | hk
    · exact hmask.trans (within_or_right _ _)
    · exact hkinds k hk

end Mnemonic

/-- Whether a layout has the fields of an operand. -/
def Format.has : Format → OperandKind → Bool
  | .register _, kind => kind ∈ [.rd, .rs, .rt, .shift]
  | .immediate _, kind => kind ∈ [.rs, .rt, .immediate, .offset, .memory]
  | .jump _, kind => kind = .target
  | .branch _, kind => kind ∈ [.rs, .offset]

/-- Whether the code of a layout fits its fields and is not the code of another layout. -/
def Format.isCoded : Format → Bool
  | .register funct => funct < 64
  | .immediate op => op < 64 && op ∉ [0, 1, 2, 3]
  | .jump op => op ∈ [2, 3]
  | .branch condition => condition < 32

/-- Whether an instruction that is real has a code and fields for all its operands. -/
def Mnemonic.isLaidOut (m : Mnemonic) : Bool :=
  match m.meaning with
  | .real f => f.isCoded && m.operands.all f.has
  | .pseudo _ => true

theorem Mnemonic.isLaidOut_of_mem : ∀ m ∈ table, m.isLaidOut = true := by decide

theorem Mnemonic.real_of_mem {m : Mnemonic} (hm : m ∈ table) {f : Format}
    (hf : m.meaning = .real f) :
    f.isCoded = true ∧ ∀ kind ∈ m.operands, f.has kind = true := by
  have h := isLaidOut_of_mem m hm
  rw [isLaidOut, hf] at h
  simpa using h

namespace Instruction

/-- Whether `i` has the layout and the code of `f`. -/
def hasFormat (i : Instruction) : Format → Bool
  | .register funct => i.op == 0 && i.funct == funct
  | .immediate op => i.op == op
  | .jump op => i.op == op
  | .branch condition => i.op == 1 && i.word.bits 16 20 == condition

/-! ### Fields that are encoded again -/

/-- The operands with what `i` has in the field of one of them. -/
def fill (i : Instruction) (o : Operands) : OperandKind → Operands
  | .rd => { o with rd := i.rd }
  | .rs => { o with rs := i.rs }
  | .rt => { o with rt := i.rt }
  | .shift => { o with shift := i.shift }
  | .immediate | .full | .offset => { o with imm := i.imm }
  | .target => { o with imm := i.target }
  | .memory => { o with imm := i.imm, rs := i.rs }

/-- What `i` has in the fields of the given operands. -/
def operandsOf (i : Instruction) (kinds : List OperandKind) : Operands := kinds.foldl i.fill {}

variable (i : Instruction)

theorem toWord_ofWord {lo hi : Nat} (h : hi - lo = 4) :
    (Register.ofWord (i.word.bits lo hi)).toWord = i.word.bits lo hi := by
  have hlt := i.word.toNat_bits_lt lo hi
  rw [h] at hlt
  apply BitVec.eq_of_toNat_eq
  rw [Register.toWord, Register.ofWord, BitVec.toNat_setWidth, BitVec.toNat_setWidth]
  omega

theorem toWord_rd : i.rd.toWord = i.word.bits 11 15 := i.toWord_ofWord rfl

theorem toWord_rs : i.rs.toWord = i.word.bits 21 25 := i.toWord_ofWord rfl

theorem toWord_rt : i.rt.toWord = i.word.bits 16 20 := i.toWord_ofWord rfl

/-- Filling in one operand takes the bits of its field over from `i`. -/
theorem encode_fill {f : Format} {kind : OperandKind} (h : f.has kind = true) (o : Operands) :
    (encode f (i.fill o kind)).word =
      ((encode f o).word &&& ~~~kind.mask) ||| (i.word &&& kind.mask) := by
  apply BitVec.eq_of_getLsbD_eq
  intro j hj
  cases f <;> cases kind <;> simp [Format.has] at h
  all_goals
    simp only [encode, fill, toWord_rd, toWord_rs, toWord_rt, shift, imm, target,
      OperandKind.mask, BitVec.getLsbD_or, BitVec.getLsbD_and, BitVec.getLsbD_not]
    simp (disch := decide) only [getLsbD_setBits, getLsbD_range, getLsbD_bits]
    grind

/-- What stands in the fields of operands is encoded as it stands there. -/
theorem encode_foldl {f : Format} : ∀ (kinds : List OperandKind) {o : Operands} {mask : Word},
    (∀ kind ∈ kinds, f.has kind = true) → (encode f o).word = i.word &&& mask →
    (encode f (kinds.foldl i.fill o)).word = i.word &&& Mnemonic.addMasks mask kinds
  | [], _, _, _, h => h
  | kind :: kinds, o, mask, hkinds, h => by
    refine encode_foldl kinds (fun k hk => hkinds k (List.mem_cons_of_mem kind hk)) ?_
    rw [i.encode_fill (hkinds kind List.mem_cons_self), h]
    apply BitVec.eq_of_getLsbD_eq
    intro j hj
    simp only [BitVec.getLsbD_or, BitVec.getLsbD_and, BitVec.getLsbD_not]
    grind

/-- Without operands there is nothing but the code. -/
theorem encode_code {f : Format} (h : i.hasFormat f = true) :
    (encode f {}).word = i.word &&& f.mask := by
  have hzero : Register.zero.toWord = 0 := rfl
  apply BitVec.eq_of_getLsbD_eq
  intro j hj
  -- the code is what `i` has in those fields, and the others are zero
  cases f with
  | register funct =>
    simp only [hasFormat, Bool.and_eq_true, beq_iff_eq] at h
    obtain ⟨hop, rfl⟩ := h
    have hbit := congrArg (fun x => BitVec.getLsbD x (j - 26)) hop
    simp only [op, funct, encode, hzero, Format.mask, BitVec.getLsbD_or,
      BitVec.getLsbD_and] at hbit ⊢
    simp (disch := decide) only [getLsbD_setBits, getLsbD_range, getLsbD_bits] at hbit ⊢
    grind
  | immediate op | jump op =>
    simp only [hasFormat, beq_iff_eq] at h
    subst h
    simp only [Instruction.op, encode, hzero, Format.mask, BitVec.getLsbD_and]
    simp (disch := decide) only [getLsbD_setBits, getLsbD_range, getLsbD_bits]
    grind
  | branch condition =>
    simp only [hasFormat, Bool.and_eq_true, beq_iff_eq] at h
    obtain ⟨hop, rfl⟩ := h
    have hbit := congrArg (fun x => BitVec.getLsbD x (j - 26)) hop
    simp only [op, encode, hzero, Format.mask, BitVec.getLsbD_or, BitVec.getLsbD_and] at hbit ⊢
    simp (disch := decide) only [getLsbD_setBits, getLsbD_range, getLsbD_bits] at hbit ⊢
    grind

/-- The operands that `i` has, encoded again, are `i` without the bits that are not used. -/
theorem encode_operandsOf {m : Mnemonic} (hm : m ∈ Mnemonic.table) {f : Format}
    (hf : m.meaning = .real f) (h : i.hasFormat f = true) :
    encode f (i.operandsOf m.operands) = ⟨i.word &&& m.mask⟩ := by
  have hword := i.encode_foldl m.operands (Mnemonic.real_of_mem hm hf).2 (i.encode_code h)
  rw [← Mnemonic.mask_real hf] at hword
  exact congrArg Instruction.mk hword

/-! ### Codes -/

/-- The layout that the operation of `i` tells, with the code that `i` has in it. -/
def format : Format :=
  if i.op = 0 then .register i.funct
  else if i.op = 1 then .branch (i.word.bits 16 20)
  else if i.op = 2 ∨ i.op = 3 then .jump i.op
  else .immediate i.op

/-- An instruction has one layout and code only. -/
theorem hasFormat_iff {f : Format} (h : f.isCoded = true) :
    i.hasFormat f = true ↔ i.format = f := by
  unfold hasFormat format
  cases f with
  | register funct => grind
  | immediate op =>
    simp only [Format.isCoded, Bool.and_eq_true, decide_eq_true_eq] at h
    grind
  | jump op =>
    simp only [Format.isCoded, decide_eq_true_eq] at h
    grind
  | branch condition => grind

theorem hasFormat_format {m : Mnemonic} (hm : m ∈ Mnemonic.table)
    (h : m.meaning = .real i.format) : i.hasFormat i.format = true :=
  (i.hasFormat_iff (Mnemonic.real_of_mem hm h).1).2 rfl

/-- An instruction has the layout and the code that it was encoded with. -/
theorem format_encode {f : Format} (h : f.isCoded = true) (o : Operands) :
    (encode f o).format = f := by
  rw [← hasFormat_iff _ h]
  cases f with
  | register funct =>
    have hlow : funct.low 6 = funct := low_of_lt (by simpa [Format.isCoded, BitVec.lt_def] using h)
    simp (disch := decide) only [hasFormat, op, Instruction.funct, encode,
      bits_setBits_of_disjoint, bits_setBits_self, hlow]
    simp [bits]
  | immediate op =>
    simp only [Format.isCoded, Bool.and_eq_true, decide_eq_true_eq, BitVec.lt_def] at h
    have hlow : op.low 6 = op := low_of_lt h.1
    simp (disch := decide) only [hasFormat, Instruction.op, encode, bits_setBits_of_disjoint,
      bits_setBits_self, hlow]
    simp
  | jump op =>
    simp only [Format.isCoded, decide_eq_true_eq, List.mem_cons, List.not_mem_nil, or_false] at h
    simp (disch := decide) only [hasFormat, Instruction.op, encode, bits_setBits_of_disjoint,
      bits_setBits_self]
    rcases h with rfl | rfl <;> rfl
  | branch condition =>
    have hlow : condition.low 5 = condition :=
      low_of_lt (by simpa [Format.isCoded, BitVec.lt_def] using h)
    simp (disch := decide) only [hasFormat, op, encode, bits_setBits_of_disjoint,
      bits_setBits_self, hlow]
    simp [low, lowMask]

end Instruction

/-! ### Operands that are used -/

/-- Whether an operand goes to the field that also holds offsets and targets. -/
def OperandKind.usesImm (kind : OperandKind) : Bool :=
  kind ∈ [.immediate, .full, .offset, .target, .memory]

/-- All that the given operands leave alone is zero. -/
structure Operands.Only (kinds : List OperandKind) (o : Operands) : Prop where
  rd : .rd ∉ kinds → o.rd = .zero
  rs : .rs ∉ kinds → .memory ∉ kinds → o.rs = .zero
  rt : .rt ∉ kinds → o.rt = .zero
  shift : .shift ∉ kinds → o.shift = 0
  imm : (∀ kind ∈ kinds, kind.usesImm = false) → o.imm = 0

/-- The bits of the field for values, offsets or targets. -/
def Format.valueMask : Format → Word
  | .register _ => 0
  | .immediate _ | .branch _ => range 0 15
  | .jump _ => range 0 25

theorem Format.within_valueMask {f : Format} {kind : OperandKind} (h : f.has kind = true)
    (huses : kind.usesImm = true) : Within kind.mask f.valueMask := by
  cases kind with
  | rd | rs | rt | shift => simp [OperandKind.usesImm] at huses
  | immediate | full | offset | target =>
    cases f <;> simp [Format.has] at h
    all_goals exact fun _ hi => hi
  | memory =>
    cases f <;> simp [Format.has] at h
    exact within_or_right _ _

theorem Operands.Only.mono {kinds kinds' : List OperandKind} {o : Operands} (h : o.Only kinds)
    (hkinds : kinds ⊆ kinds') : o.Only kinds' where
  rd hrd := h.rd fun hmem => hrd (hkinds hmem)
  rs hrs hmemory := h.rs (fun hmem => hrs (hkinds hmem)) fun hmem => hmemory (hkinds hmem)
  rt hrt := h.rt fun hmem => hrt (hkinds hmem)
  shift hshift := h.shift fun hmem => hshift (hkinds hmem)
  imm himm := h.imm fun kind hmem => himm kind (hkinds hmem)

namespace Instruction

/-- With nothing but its operands an instruction has no bits besides those that it uses. -/
theorem and_mask_encode {m : Mnemonic} (hm : m ∈ Mnemonic.table) {f : Format}
    (hf : m.meaning = .real f) {o : Operands} (h : o.Only m.operands) :
    (encode f o).word &&& m.mask = (encode f o).word := by
  obtain ⟨-, hhas⟩ := Mnemonic.real_of_mem hm hf
  obtain ⟨hcode, hkinds⟩ := Mnemonic.within_addMasks m.operands f.mask
  rw [← Mnemonic.mask_real hf] at hcode hkinds
  -- a field is zero, or it is one that the mask has
  have hfield : ∀ (kind : OperandKind) {x : Word}, (kind ∉ m.operands → x = 0) →
      x = 0 ∨ Within m.mask kind.mask := by
    intro kind x hx
    by_cases hmem : kind ∈ m.operands
    · exact Or.inr (hkinds kind hmem)
    · exact Or.inl (hx hmem)
  have hrd := hfield .rd fun hmem => congrArg Register.toWord (h.rd hmem)
  have hrt := hfield .rt fun hmem => congrArg Register.toWord (h.rt hmem)
  have hshift := hfield .shift h.shift
  have hrs : o.rs.toWord = 0 ∨ Within m.mask (range 21 25) := by
    by_cases hmem : .memory ∈ m.operands
    · exact Or.inr ((hkinds _ hmem).trans (within_or_left _ _))
    · exact hfield .rs fun hrs => congrArg Register.toWord (h.rs hrs hmem)
  have hvalue : o.imm = 0 ∨ Within m.mask f.valueMask := by
    by_cases hkind : ∃ kind ∈ m.operands, kind.usesImm = true
    · obtain ⟨kind, hmem, huses⟩ := hkind
      exact Or.inr ((hkinds kind hmem).trans (Format.within_valueMask (hhas kind hmem) huses))
    · refine Or.inl (h.imm fun kind hmem => ?_)
      exact Bool.eq_false_iff.2 fun huses => hkind ⟨kind, hmem, huses⟩
  apply Within.and_eq
  cases f with
  | register funct =>
    have hfunct := hcode.trans (within_or_right (range 26 31) (range 0 5))
    exact (((((within_zero _).setBits (by decide) (Or.inr hfunct)).setBits (by decide) hrd).setBits
      (by decide) hrs).setBits (by decide) hrt).setBits (by decide) hshift
  | immediate op =>
    exact ((((within_zero _).setBits (by decide) (Or.inr hcode)).setBits (by decide) hrs).setBits
      (by decide) hrt).setBits (by decide) hvalue
  | jump op =>
    exact ((within_zero _).setBits (by decide) (Or.inr hcode)).setBits (by decide) hvalue
  | branch condition =>
    have hop := hcode.trans (within_or_left (range 26 31) (range 16 20))
    have hcondition := hcode.trans (within_or_right (range 26 31) (range 16 20))
    exact ((((within_zero _).setBits (by decide) (Or.inr hop)).setBits (by decide)
      (Or.inr hcondition)).setBits (by decide) hrs).setBits (by decide) hvalue

end Instruction

end Mips
