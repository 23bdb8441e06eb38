import Mathlib.Algebra.Ring.Nat
import Mips.Machine.Word

/-!
# Ranges and widths of words

A range of bits that was set reads as the lowest bits of what it was set to. The lowest bits of a
word are its remainder, and a word fits a width if it is its own remainder, or if it is one as a
two's complement number.
-/

namespace Mips

namespace Word

/-! ### Ranges -/

theorem getLsbD_low (x : Word) (width i : Nat) :
    (x.low width).getLsbD i = (x.getLsbD i && decide (i < width)) := by
  rw [low, BitVec.getLsbD_and, getLsbD_lowMask]
  by_cases h : i < 32
  · simp [h]
  · simp [BitVec.getLsbD_of_ge x i (by omega)]

/-- What was put into a range of bits is read there, up to the width of the range. -/
theorem bits_setBits_self (x v : Word) {lo hi : Nat} (hle : lo ≤ hi) (hlt : hi < 32) :
    (x.setBits lo hi v).bits lo hi = v.low (hi - lo + 1) := by
  apply BitVec.eq_of_getLsbD_eq
  intro i hi32
  rw [getLsbD_bits, getLsbD_setBits x v hle, getLsbD_low]
  by_cases h : i ≤ hi - lo
  · have hrange : lo ≤ lo + i ∧ lo + i ≤ hi := by omega
    have hword : lo + i < 32 := by omega
    simp [h, hrange, hword, Nat.lt_succ_of_le h]
  · have hwidth : ¬ i < hi - lo + 1 := by omega
    simp [h, hwidth]

/-- A range of bits outside of the one that was set is as before. -/
theorem bits_setBits_of_disjoint (x v : Word) {lo hi lo' hi' : Nat} (hle : lo ≤ hi)
    (hle' : lo' ≤ hi') (h : hi < lo' ∨ hi' < lo) :
    (x.setBits lo' hi' v).bits lo hi = x.bits lo hi := by
  apply BitVec.eq_of_getLsbD_eq
  intro i hi32
  rw [getLsbD_bits, getLsbD_bits, getLsbD_setBits x v hle']
  by_cases hin : i ≤ hi - lo
  · have hout : ¬ (lo' ≤ lo + i ∧ lo + i ≤ hi') := by omega
    rw [if_neg hout]
  · simp [hin]

theorem low_low (x : Word) (width : Nat) : (x.low width).low width = x.low width := by
  apply BitVec.eq_of_getLsbD_eq
  intro i hi
  rw [getLsbD_low, getLsbD_low, Bool.and_assoc, Bool.and_self]

theorem low_bits (x : Word) {lo hi : Nat} :
    (x.bits lo hi).low (hi - lo + 1) = x.bits lo hi := by
  apply BitVec.eq_of_getLsbD_eq
  intro i hi32
  have hwidth : decide (i < hi - lo + 1) = decide (i ≤ hi - lo) :=
    decide_eq_decide.2 Nat.lt_succ_iff
  rw [getLsbD_low, getLsbD_bits, Bool.and_assoc, hwidth, Bool.and_self]

/-! ### Widths as numbers -/

theorem toNat_low (x : Word) (width : Nat) : (x.low width).toNat = x.toNat % 2 ^ width := by
  apply Nat.eq_of_testBit_eq
  intro i
  rw [Nat.testBit_mod_two_pow, ← BitVec.getLsbD, ← BitVec.getLsbD, getLsbD_low, Bool.and_comm]

theorem low_of_lt {x : Word} {width : Nat} (h : x.toNat < 2 ^ width) : x.low width = x := by
  apply BitVec.eq_of_toNat_eq
  rw [toNat_low, Nat.mod_eq_of_lt h]

theorem toNat_bits (x : Word) (lo hi : Nat) :
    (x.bits lo hi).toNat = x.toNat / 2 ^ lo % 2 ^ (hi - lo + 1) := by
  rw [bits, ← low, toNat_low, BitVec.toNat_ushiftRight, Nat.shiftRight_eq_div_pow]

theorem toNat_bits_lt (x : Word) (lo hi : Nat) : (x.bits lo hi).toNat < 2 ^ (hi - lo + 1) := by
  rw [toNat_bits]
  exact Nat.mod_lt _ (Nat.two_pow_pos _)

/-- The two halves of a word make up the word. -/
theorem toNat_halves (x : Word) :
    (x.bits 16 31).toNat * 2 ^ 16 + (x.bits 0 15).toNat = x.toNat := by
  have hx := x.isLt
  rw [toNat_bits, toNat_bits]
  omega

/-- A word fits a width without sign if it is below the power of two. -/
theorem fitsUnsigned_iff (x : Word) (width : Nat) :
    x.fitsUnsigned width = true ↔ x.toNat < 2 ^ width := by
  rw [fitsUnsigned, beq_iff_eq]
  refine ⟨fun h => ?_, fun h => ?_⟩
  · refine Nat.lt_pow_two_of_testBit _ fun i hi => ?_
    have hbit := congrArg (fun y => BitVec.getLsbD y i) h
    simp only [BitVec.getLsbD_and, BitVec.getLsbD_not, getLsbD_lowMask] at hbit
    rw [← BitVec.getLsbD]
    by_cases hlt : i < 32
    · simpa [hlt, Nat.not_lt.2 hi] using hbit
    · exact BitVec.getLsbD_of_ge x i (by omega)
  · apply BitVec.eq_of_getLsbD_eq
    intro i hi
    rw [BitVec.getLsbD_and, BitVec.getLsbD_not, getLsbD_lowMask]
    by_cases hlt : i < width
    · simp [hi, hlt]
    · have hzero : x.getLsbD i = false := Nat.testBit_lt_two_pow (Nat.lt_of_lt_of_le h
        (Nat.pow_le_pow_right (by decide) (Nat.not_lt.1 hlt)))
      simp [hzero]

/-- Every word is within the bounds of two's complement numbers of 32 bits and more. -/
theorem toInt_bounds (x : Word) {n : Nat} (h : 31 ≤ n) :
    -((2 ^ n : Nat) : Int) ≤ x.toInt ∧ x.toInt < ((2 ^ n : Nat) : Int) := by
  have hlow := BitVec.le_toInt x
  have hhigh : x.toInt < 2 ^ (32 - 1) := BitVec.toInt_lt
  have hpow : 2 ^ 31 ≤ 2 ^ n := Nat.pow_le_pow_right (by decide) h
  omega

/-- A word fits a width with sign if it is within the bounds of two's complement numbers. -/
theorem fitsSigned_iff (x : Word) (width : Nat) :
    x.fitsSigned width = true ↔
      -((2 ^ (width - 1) : Nat) : Int) ≤ x.toInt ∧ x.toInt < ((2 ^ (width - 1) : Nat) : Int) := by
  simp only [fitsSigned, Bool.or_eq_true, Bool.and_eq_true, decide_eq_true_eq, Nat.one_shiftLeft]
  refine ⟨fun h => ?_, Or.inr⟩
  rcases h with hwide | hbounds
  · exact x.toInt_bounds (by omega)
  · exact hbounds

theorem fits_iff (x : Word) (width : Nat) :
    x.fits width = true ↔ x.toNat < 2 ^ width ∨
      -((2 ^ (width - 1) : Nat) : Int) ≤ x.toInt ∧ x.toInt < ((2 ^ (width - 1) : Nat) : Int) := by
  rw [fits, Bool.or_eq_true, fitsUnsigned_iff, fitsSigned_iff]

/-- The words that a width has with their sign are those within the bounds of its numbers. -/
theorem signExtend_setWidth_eq_iff (x : Word) {width : Nat} :
    (x.setWidth (width + 1)).signExtend 32 = x ↔
      -((2 ^ width : Nat) : Int) ≤ x.toInt ∧ x.toInt < ((2 ^ width : Nat) : Int) := by
  have hdouble : 2 ^ (width + 1) = 2 * 2 ^ width := Nat.pow_succ'
  rcases Nat.lt_or_ge width 32 with hlt | hge
  · -- the numbers of the width are their own remainders around zero
    have hdvd : 2 ^ (width + 1) ∣ 2 ^ 32 := Nat.pow_dvd_pow 2 hlt
    have hcut : (x.setWidth (width + 1)).toInt = x.toInt.bmod (2 ^ (width + 1)) := by
      rw [BitVec.toInt_setWidth, BitVec.toInt_eq_toNat_bmod x, Int.bmod_bmod_of_dvd hdvd]
    rw [← BitVec.toInt_inj, BitVec.toInt_signExtend_of_le hlt, hcut,
      Int.bmod_eq_iff (Nat.two_pow_pos _), Int.sub_self]
    have hself : ((2 ^ (width + 1) : Nat) : Int) ∣ 0 := Int.dvd_zero _
    omega
  · -- nothing is cut off
    have hwhole : (x.setWidth (width + 1)).signExtend 32 = x := by
      rw [BitVec.signExtend_eq_setWidth_of_le _ (by omega),
        BitVec.setWidth_setWidth_of_le _ (by omega), BitVec.setWidth_eq]
    exact iff_of_true hwhole (x.toInt_bounds (by omega))

/-! ### Bytes -/

theorem byteAt_eq (x : Word) (lo : Nat) : x.byteAt lo = UInt8.ofNat (x.toNat >>> lo) := by
  apply UInt8.toNat_inj.1
  simp [byteAt]

end Word

end Mips
