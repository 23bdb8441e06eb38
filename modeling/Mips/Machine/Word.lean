/-!
# Words

Addresses, values and instructions are all words of 32 bits. This module reads and replaces the
bits of a word between two positions, tells whether a word survives being cut to fewer bits, and
writes words as hexadecimal text and as big-endian bytes. Bit 0 is the least significant.
-/

namespace Mips

/-- A value of 32 bits: an address, a number or an instruction. -/
abbrev Word := BitVec 32

namespace Word

/-! ### Bit ranges -/

/-- The word whose lowest `width` bits are set; from 32 on that is every bit. -/
def lowMask (width : Nat) : Word := BitVec.allOnes 32 >>> (32 - width)

/-- The bits of `x` from `lo` to `hi`, both included, moved down to bit 0. -/
def bits (x : Word) (lo hi : Nat) : Word := (x >>> lo) &&& lowMask (hi - lo + 1)

/-- The word `x` with its bits from `lo` to `hi` replaced by the lowest bits of `v`. -/
def setBits (x : Word) (lo hi : Nat) (v : Word) : Word :=
  (x &&& ~~~(lowMask (hi - lo + 1) <<< lo)) ||| ((v &&& lowMask (hi - lo + 1)) <<< lo)

theorem getLsbD_lowMask (width i : Nat) :
    (lowMask width).getLsbD i = decide (i < 32 ∧ i < width) := by
  simp only [lowMask, BitVec.getLsbD_ushiftRight, BitVec.getLsbD_allOnes]
  grind

/-- Bit `i` of a range is bit `lo + i` of the word, up to the end of the range. -/
theorem getLsbD_bits (x : Word) (lo hi i : Nat) :
    (x.bits lo hi).getLsbD i = (x.getLsbD (lo + i) && decide (i ≤ hi - lo)) := by
  simp only [bits, BitVec.getLsbD_and, BitVec.getLsbD_ushiftRight, getLsbD_lowMask]
  by_cases h : i < 32
  · grind
  · simp [BitVec.getLsbD_of_ge x (lo + i) (by omega)]

/-- A bit inside the range comes from `v`, a bit outside from `x`. -/
theorem getLsbD_setBits (x v : Word) {lo hi : Nat} (h : lo ≤ hi) (i : Nat) :
    (x.setBits lo hi v).getLsbD i =
      if lo ≤ i ∧ i ≤ hi then decide (i < 32) && v.getLsbD (i - lo) else x.getLsbD i := by
  simp only [setBits, BitVec.getLsbD_or, BitVec.getLsbD_and, BitVec.getLsbD_not,
    BitVec.getLsbD_shiftLeft, getLsbD_lowMask]
  grind

/-! ### Widths -/

/-- The lowest `width` bits of `x`. -/
def low (x : Word) (width : Nat) : Word := x &&& lowMask width

/-- Whether `x` is below `2 ^ width`. -/
def fitsUnsigned (x : Word) (width : Nat) : Bool := x &&& ~~~(lowMask width) == 0

/-- Whether `x`, read as a two's complement number, needs at most `width` bits. -/
def fitsSigned (x : Word) (width : Nat) : Bool :=
  let bound : Int := (1 <<< (width - 1) : Nat)
  32 ≤ width || (-bound ≤ x.toInt && x.toInt < bound)

/-- Whether `x` fits `width` bits under either reading. -/
def fits (x : Word) (width : Nat) : Bool := x.fitsUnsigned width || x.fitsSigned width

/-! ### Text and bytes -/

/-- Hexadecimal with the fewest digits: `0x0`, `0x1f`. -/
def hex (x : Word) : String := "0x" ++ String.ofList (Nat.toDigits 16 x.toNat)

/-- Hexadecimal with eight digits: `0x00400000`. -/
def hex8 (x : Word) : String :=
  let digits := Nat.toDigits 16 x.toNat
  "0x" ++ String.ofList (List.replicate (8 - digits.length) '0' ++ digits)

/-- The byte of `x` that starts at bit `lo`. -/
def byteAt (x : Word) (lo : Nat) : UInt8 := UInt8.ofBitVec ((x >>> lo).setWidth 8)

/-- The four bytes of a word, the most significant first. -/
def bytes (x : Word) : List UInt8 := [x.byteAt 24, x.byteAt 16, x.byteAt 8, x.byteAt 0]

/-- The word with the given bytes, the most significant first. -/
def ofBytes (a b c d : UInt8) : Word :=
  a.toBitVec.setWidth 32 <<< 24 ||| b.toBitVec.setWidth 32 <<< 16 |||
    c.toBitVec.setWidth 32 <<< 8 ||| d.toBitVec.setWidth 32

end Word

end Mips
