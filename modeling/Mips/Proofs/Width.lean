import Mips.Proofs.Word

/-!
# Words that survive a cut

A word fits a width without sign if nothing is lost by cutting it to that width. It fits with sign
if its lowest bits, extended by their sign, are the word again (`widths_lossless`).

Machines find masks and bounds by shifts, negations and differences in words of 32 bits. With each
of these steps checked against the range of its words, the same answers come out: no step overflows.
Only the test with sign needs a bit for the sign, so it starts at width 1.

    width          0    1      ..    31                 32 ..
    mask           0    1            2^31 - 1           every bit
    least               -1           -2^30              every word
    greatest            0            2^30 - 1           every word
-/

namespace Mips

namespace Word

/-! ### Checked steps -/

/-- The word for the number `n` without sign, if there is one. -/
def ofUnsigned? (n : Int) : Option Word :=
  if 0 ≤ n ∧ n < 0x100000000 then some (BitVec.ofInt 32 n) else none

/-- The word for the number `n` in two's complement, if there is one. -/
def ofSigned? (n : Int) : Option Word :=
  if -0x80000000 ≤ n ∧ n < 0x80000000 then some (BitVec.ofInt 32 n) else none

/-- One, moved up by `n` bits: none if `n` is no distance in a word, or if the bit is lost. -/
def shiftOne? (word? : Int → Option Word) (n : Nat) : Option Word :=
  if n < 32 then word? ((2 ^ n : Nat) : Int) else none

/-- The mask of the lowest `width` bits, by a shift and a difference without sign. -/
def lowMask? (width : Nat) : Option Word :=
  if 32 ≤ width then some (BitVec.allOnes 32)
  else (shiftOne? ofUnsigned? width).bind fun bound => ofUnsigned? (bound.toNat - 1)

/-- The lowest `width` bits, by the mask. -/
def low? (x : Word) (width : Nat) : Option Word := (lowMask? width).map (x &&& ·)

/-- Whether no bit is set outside of the mask. -/
def fitsUnsigned? (x : Word) (width : Nat) : Option Bool :=
  (lowMask? width).map fun mask => x &&& ~~~mask == 0

/-- Whether the word is within bounds that come from a shift, a negation and a difference with
sign. -/
def fitsSigned? (x : Word) (width : Nat) : Option Bool :=
  if 32 ≤ width then some true
  else if width = 0 then none
  else
    (shiftOne? ofSigned? (width - 1)).bind fun bound =>
      (ofSigned? (-bound.toInt)).bind fun least =>
        (ofSigned? (bound.toInt - 1)).map fun greatest =>
          least.toInt ≤ x.toInt && x.toInt ≤ greatest.toInt

/-- Whether the word fits under either reading. The second test is made only if the first fails. -/
def fits? (x : Word) (width : Nat) : Option Bool :=
  (x.fitsUnsigned? width).bind fun fitting =>
    if fitting then some true else x.fitsSigned? width

theorem exists_ofUnsigned? {n : Int} (hlow : 0 ≤ n) (hhigh : n < 0x100000000) :
    ∃ x, ofUnsigned? n = some x ∧ (x.toNat : Int) = n := by
  refine ⟨_, if_pos ⟨hlow, hhigh⟩, ?_⟩
  rw [BitVec.toNat_ofInt]
  omega

theorem exists_ofSigned? {n : Int} (hlow : -0x80000000 ≤ n) (hhigh : n < 0x80000000) :
    ∃ x, ofSigned? n = some x ∧ x.toInt = n := by
  refine ⟨_, if_pos ⟨hlow, hhigh⟩, ?_⟩
  exact BitVec.toInt_ofInt_eq_self (by decide) hlow hhigh

/-! ### Masks -/

theorem lowMask_eq_ofNat (width : Nat) : lowMask width = BitVec.ofNat 32 (2 ^ width - 1) := by
  apply BitVec.eq_of_getLsbD_eq
  intro i hi
  rw [getLsbD_lowMask, BitVec.getLsbD_ofNat, Nat.testBit_two_pow_sub_one]
  simp [hi]

theorem lowMask?_eq (width : Nat) : lowMask? width = some (lowMask width) := by
  unfold lowMask? shiftOne?
  rcases Nat.lt_or_ge width 32 with hlt | hge
  · have hpos : 0 < 2 ^ width := Nat.two_pow_pos width
    have hpow : 2 ^ width ≤ 2 ^ 31 := Nat.pow_le_pow_right (by decide) (by omega)
    obtain ⟨bound, hbound, hvalue⟩ :=
      exists_ofUnsigned? (n := ((2 ^ width : Nat) : Int)) (by omega) (by omega)
    obtain ⟨mask, hmask, hlast⟩ :=
      exists_ofUnsigned? (n := (bound.toNat : Int) - 1) (by omega) (by omega)
    rw [if_neg (by omega), if_pos hlt, hbound, Option.bind_some, hmask, lowMask_eq_ofNat]
    refine congrArg some ?_
    apply BitVec.eq_of_toNat_eq
    rw [BitVec.toNat_ofNat]
    omega
  · rw [if_pos hge]
    refine congrArg some ?_
    apply BitVec.eq_of_getLsbD_eq
    intro i hi
    rw [getLsbD_lowMask, BitVec.getLsbD_allOnes]
    simp [hi, Nat.lt_of_lt_of_le hi hge]

/-! ### Tests -/

theorem low?_eq (x : Word) (width : Nat) : x.low? width = some (x.low width) := by
  rw [low?, lowMask?_eq]
  rfl

theorem fitsUnsigned?_eq (x : Word) (width : Nat) :
    x.fitsUnsigned? width = some (x.fitsUnsigned width) := by
  rw [fitsUnsigned?, lowMask?_eq]
  rfl

theorem fitsSigned?_eq (x : Word) {width : Nat} (hpos : 0 < width) :
    x.fitsSigned? width = some (x.fitsSigned width) := by
  unfold fitsSigned? shiftOne?
  rcases Nat.lt_or_ge width 32 with hlt | hge
  · have hone : 0 < 2 ^ (width - 1) := Nat.two_pow_pos _
    have hpow : 2 ^ (width - 1) ≤ 2 ^ 30 := Nat.pow_le_pow_right (by decide) (by omega)
    obtain ⟨bound, hbound, hvalue⟩ :=
      exists_ofSigned? (n := ((2 ^ (width - 1) : Nat) : Int)) (by omega) (by omega)
    obtain ⟨least, hleast, hlow⟩ := exists_ofSigned? (n := -bound.toInt) (by omega) (by omega)
    obtain ⟨greatest, hgreatest, hhigh⟩ :=
      exists_ofSigned? (n := bound.toInt - 1) (by omega) (by omega)
    rw [if_neg (by omega), if_neg (by omega), if_pos (by omega), hbound, Option.bind_some, hleast,
      Option.bind_some, hgreatest, Option.map_some]
    refine congrArg some ?_
    rw [Bool.eq_iff_iff, fitsSigned_iff, Bool.and_eq_true, decide_eq_true_eq, decide_eq_true_eq]
    omega
  · rw [if_pos hge]
    refine congrArg some ?_
    exact ((fitsSigned_iff x width).2 (x.toInt_bounds (by omega))).symm

theorem fits?_eq (x : Word) {width : Nat} (hpos : 0 < width) :
    x.fits? width = some (x.fits width) := by
  rw [fits?, fitsUnsigned?_eq, fitsSigned?_eq x hpos, Option.bind_some, fits]
  cases x.fitsUnsigned width <;> rfl

/-! ### What a cut loses -/

theorem fitsUnsigned_iff_low_eq (x : Word) (width : Nat) :
    x.fitsUnsigned width = true ↔ x.low width = x := by
  rw [fitsUnsigned_iff]
  refine ⟨low_of_lt, fun h => ?_⟩
  rw [← h, toNat_low]
  exact Nat.mod_lt _ (Nat.two_pow_pos width)

theorem setWidth_low (x : Word) (width : Nat) :
    (x.low width).setWidth width = x.setWidth width := by
  apply BitVec.eq_of_toNat_eq
  rw [BitVec.toNat_setWidth, BitVec.toNat_setWidth, toNat_low, Nat.mod_mod]

theorem fitsSigned_iff_extended_eq (x : Word) {width : Nat} (hpos : 0 < width) :
    x.fitsSigned width = true ↔ ((x.low width).setWidth width).signExtend 32 = x := by
  obtain ⟨n, rfl⟩ := Nat.exists_eq_succ_of_ne_zero (Nat.ne_of_gt hpos)
  rw [setWidth_low, signExtend_setWidth_eq_iff, fitsSigned_iff, Nat.succ_sub_one]

/-- Cutting leaves the remainder. A word fits without sign if it is that remainder, and with sign if
it comes back by extending the remainder. With every step checked the answers are the same. -/
theorem widths_lossless (x : Word) (width : Nat) :
    (x.low width).toNat = x.toNat % 2 ^ width ∧
      (x.fitsUnsigned width = true ↔ x.low width = x) ∧
      (0 < width →
        (x.fitsSigned width = true ↔ ((x.low width).setWidth width).signExtend 32 = x)) ∧
      (x.fits width = true ↔ x.fitsUnsigned width = true ∨ x.fitsSigned width = true) ∧
      x.low? width = some (x.low width) ∧
      x.fitsUnsigned? width = some (x.fitsUnsigned width) ∧
      (0 < width → x.fitsSigned? width = some (x.fitsSigned width) ∧
        x.fits? width = some (x.fits width)) :=
  ⟨x.toNat_low width, x.fitsUnsigned_iff_low_eq width, x.fitsSigned_iff_extended_eq,
    by rw [fits, Bool.or_eq_true], x.low?_eq width, x.fitsUnsigned?_eq width,
    fun hpos => ⟨x.fitsSigned?_eq hpos, x.fits?_eq hpos⟩⟩

/-- The least number of 16 bits comes back by its sign only. -/
theorem least_halfword_kept :
    (0xffff8000 : Word).low 16 = 0x8000 ∧
      (((0xffff8000 : Word).low 16).setWidth 16).signExtend 32 = 0xffff8000 ∧
      (0xffff8000 : Word).fitsUnsigned? 16 = some false ∧
      (0xffff8000 : Word).fitsSigned? 16 = some true ∧
      (0xffff8000 : Word).fits? 16 = some true := by
  have hfits : (0xffff8000 : Word).fitsSigned 16 = true := by decide
  have hwide : (0xffff8000 : Word).fitsUnsigned 16 = false := by decide
  obtain ⟨-, -, hsigned, heither, -, hunsigned, htests⟩ := widths_lossless 0xffff8000 16
  obtain ⟨htest, hboth⟩ := htests (by decide)
  refine ⟨by decide, (hsigned (by decide)).1 hfits, ?_, ?_, ?_⟩
  · rw [hunsigned, hwide]
  · rw [htest, hfits]
  · rw [hboth, heither.2 (Or.inr hfits)]

end Word

end Mips
