import Mips.Proofs.Width

/-!
# Ranges of bits as fields

Setting a range of bits gives the one word that reads as the new value in the range and agrees with
the old word outside of it (`eq_setBits_iff`). So a range is a field of the word: it can be read
back, putting in what is there changes nothing, the last of two values stays, and ranges that lie
apart neither see each other nor depend on the order in which they are set (`lawful`).

    bit        31 .. hi + 1    hi .. lo    lo - 1 .. 0
    setBits    from x          from v      from x

A range may end at the edge of the word, and it may be the whole word. With each shift and each
difference checked, as machines make them, the same words come out.
-/

namespace Mips

/-- The bits of a word from `lo` to `hi`, both included. -/
structure BitRange where
  lo : Nat
  hi : Nat
  ordered : lo ≤ hi
  inside : hi < 32

namespace BitRange

/-- How many bits there are. -/
def width (r : BitRange) : Nat := r.hi - r.lo + 1

instance : Membership Nat BitRange := ⟨fun r i => r.lo ≤ i ∧ i ≤ r.hi⟩

theorem mem_iff {r : BitRange} {i : Nat} : i ∈ r ↔ r.lo ≤ i ∧ i ≤ r.hi := Iff.rfl

/-- No bit is in both ranges. -/
def Apart (r s : BitRange) : Prop := ∀ i, i ∈ r → i ∉ s

theorem apart_iff {r s : BitRange} : r.Apart s ↔ r.hi < s.lo ∨ s.hi < r.lo := by
  have hr := r.ordered
  have hs := s.ordered
  refine ⟨fun h => ?_, fun h i hi hi' => ?_⟩
  · -- of two ranges that meet, one has the lowest bit of the other
    have hlow := h r.lo
    have hlow' := h s.lo
    simp only [mem_iff] at hlow hlow'
    omega
  · rw [mem_iff] at hi hi'
    omega

/-- The words are the same outside of the range. -/
def Agree (r : BitRange) (x y : Word) : Prop := ∀ i, i ∉ r → x.getLsbD i = y.getLsbD i

/-! ### What setting a range does -/

section

variable {r : BitRange} {x y z : Word}

theorem Agree.refl (r : BitRange) (x : Word) : r.Agree x x := fun _ _ => rfl

theorem Agree.symm (h : r.Agree x y) : r.Agree y x := fun i hi => (h i hi).symm

theorem Agree.trans (h : r.Agree x y) (h' : r.Agree y z) : r.Agree x z :=
  fun i hi => (h i hi).trans (h' i hi)

theorem agree_setBits (r : BitRange) (x v : Word) : r.Agree (x.setBits r.lo r.hi v) x := by
  intro i hi
  rw [Word.getLsbD_setBits x v r.ordered]
  exact if_neg hi

/-- Setting another range in both words leaves them the same. -/
theorem Agree.setBits (h : r.Agree x y) (s : BitRange) (v : Word) :
    r.Agree (x.setBits s.lo s.hi v) (y.setBits s.lo s.hi v) := by
  intro i hi
  rw [Word.getLsbD_setBits x v s.ordered, Word.getLsbD_setBits y v s.ordered, h i hi]

/-- A word is what it has in a range together with what it has elsewhere. -/
theorem eq_of_agree (hbits : x.bits r.lo r.hi = y.bits r.lo r.hi) (h : r.Agree x y) : x = y := by
  apply BitVec.eq_of_getLsbD_eq
  intro i hi
  by_cases hmem : i ∈ r
  · obtain ⟨hlow, hhigh⟩ := mem_iff.1 hmem
    have hbit := congrArg (fun w => BitVec.getLsbD w (i - r.lo)) hbits
    simp only [Word.getLsbD_bits, Nat.add_sub_cancel' hlow] at hbit
    simpa [Nat.sub_le_sub_right hhigh r.lo] using hbit
  · exact h i hmem

/-- Setting a range gives the one word with the new value there and the old bits elsewhere. -/
theorem eq_setBits_iff {v : Word} :
    y = x.setBits r.lo r.hi v ↔ y.bits r.lo r.hi = v.low r.width ∧ r.Agree y x := by
  have hread := Word.bits_setBits_self x v r.ordered r.inside
  refine ⟨?_, ?_⟩
  · rintro rfl
    exact ⟨hread, agree_setBits r x v⟩
  · rintro ⟨hbits, hagree⟩
    exact eq_of_agree (hbits.trans hread.symm) (hagree.trans (agree_setBits r x v).symm)

end

/-! ### Laws of a field -/

theorem setBits_bits (r : BitRange) (x : Word) : x.setBits r.lo r.hi (x.bits r.lo r.hi) = x :=
  (eq_setBits_iff.2 ⟨(Word.low_bits x).symm, Agree.refl r x⟩).symm

/-- The second of two values for a range stays. -/
theorem setBits_setBits_self (r : BitRange) (x v u : Word) :
    (x.setBits r.lo r.hi v).setBits r.lo r.hi u = x.setBits r.lo r.hi u := by
  rw [eq_setBits_iff]
  exact ⟨Word.bits_setBits_self _ u r.ordered r.inside,
    (agree_setBits r _ u).trans (agree_setBits r x v)⟩

theorem bits_setBits_of_apart {r s : BitRange} (h : r.Apart s) (x v : Word) :
    (x.setBits r.lo r.hi v).bits s.lo s.hi = x.bits s.lo s.hi :=
  Word.bits_setBits_of_disjoint x v s.ordered r.ordered (apart_iff.1 h).symm

/-- Ranges that lie apart may be set in either order. -/
theorem setBits_comm {r s : BitRange} (h : r.Apart s) (x v u : Word) :
    (x.setBits r.lo r.hi v).setBits s.lo s.hi u = (x.setBits s.lo s.hi u).setBits r.lo r.hi v := by
  have happart : s.Apart r := fun i hs hr => h i hr hs
  -- outside of `r` both words are `x` with `s` set, so only `r` itself has to be read
  rw [eq_setBits_iff]
  refine ⟨?_, (agree_setBits r x v).setBits s u⟩
  calc ((x.setBits r.lo r.hi v).setBits s.lo s.hi u).bits r.lo r.hi
      = (x.setBits r.lo r.hi v).bits r.lo r.hi := bits_setBits_of_apart happart _ u
    _ = v.low r.width := Word.bits_setBits_self x v r.ordered r.inside

end BitRange

/-! ### Checked steps -/

namespace Word

/-- The word moved by `n` bits, if `n` is a distance in a word. -/
def shift? (move : Word → Nat → Word) (x : Word) (n : Nat) : Option Word :=
  if n < 32 then some (move x n) else none

/-- The mask for as many bits as there are from `lo` to `hi`, if these are in order. -/
def rangeMask? (lo hi : Nat) : Option Word := if lo ≤ hi then lowMask? (hi - lo + 1) else none

/-- The bits from `lo` to `hi`, by a shift and the mask. -/
def bits? (x : Word) (lo hi : Nat) : Option Word :=
  (shift? (· >>> ·) x lo).bind fun moved => (rangeMask? lo hi).map (moved &&& ·)

/-- The word with new bits from `lo` to `hi`, by the mask and two shifts. -/
def setBits? (x : Word) (lo hi : Nat) (v : Word) : Option Word :=
  (rangeMask? lo hi).bind fun mask =>
    (shift? (· <<< ·) mask lo).bind fun place =>
      (shift? (· <<< ·) (v &&& mask) lo).map fun value => (x &&& ~~~place) ||| value

theorem shift?_eq (move : Word → Nat → Word) (x : Word) {n : Nat} (h : n < 32) :
    shift? move x n = some (move x n) := if_pos h

end Word

namespace BitRange

theorem lo_lt (r : BitRange) : r.lo < 32 := Nat.lt_of_le_of_lt r.ordered r.inside

theorem rangeMask?_eq (r : BitRange) :
    Word.rangeMask? r.lo r.hi = some (Word.lowMask r.width) := by
  rw [Word.rangeMask?, if_pos r.ordered, Word.lowMask?_eq, width]

theorem bits?_eq (r : BitRange) (x : Word) : x.bits? r.lo r.hi = some (x.bits r.lo r.hi) := by
  rw [Word.bits?, Word.shift?_eq _ _ r.lo_lt, r.rangeMask?_eq]
  rfl

theorem setBits?_eq (r : BitRange) (x v : Word) :
    x.setBits? r.lo r.hi v = some (x.setBits r.lo r.hi v) := by
  rw [Word.setBits?, r.rangeMask?_eq, Option.bind_some, Word.shift?_eq _ _ r.lo_lt,
    Option.bind_some, Word.shift?_eq _ _ r.lo_lt]
  rfl

/-- A range of bits is a field: what is put there is read there, cut to the width, and put back it
changes nothing; the last value stays; ranges that lie apart are as before and may be set in either
order. With every step checked the words are the same. -/
theorem lawful (r : BitRange) (x v u : Word) :
    ((x.setBits r.lo r.hi v).bits r.lo r.hi).toNat = v.toNat % 2 ^ (r.hi - r.lo + 1) ∧
      x.setBits r.lo r.hi (x.bits r.lo r.hi) = x ∧
      (x.setBits r.lo r.hi v).setBits r.lo r.hi u = x.setBits r.lo r.hi u ∧
      (∀ s : BitRange, r.Apart s →
        (x.setBits r.lo r.hi v).bits s.lo s.hi = x.bits s.lo s.hi ∧
          (x.setBits r.lo r.hi v).setBits s.lo s.hi u =
            (x.setBits s.lo s.hi u).setBits r.lo r.hi v) ∧
      x.bits? r.lo r.hi = some (x.bits r.lo r.hi) ∧
      x.setBits? r.lo r.hi v = some (x.setBits r.lo r.hi v) := by
  refine ⟨?_, r.setBits_bits x, r.setBits_setBits_self x v u, ?_, r.bits?_eq x, r.setBits?_eq x v⟩
  · rw [Word.bits_setBits_self x v r.ordered r.inside, Word.toNat_low]
  · intro s hs
    exact ⟨bits_setBits_of_apart hs x v, setBits_comm hs x v u⟩

/-- The upper half of a word. -/
def upperHalf : BitRange := ⟨16, 31, by decide, by decide⟩

/-- The lower half of a word. -/
def lowerHalf : BitRange := ⟨0, 15, by decide, by decide⟩

/-- The halves of a word are set in either order, and each drops what is too wide for it. -/
theorem halves_in_either_order :
    upperHalf.Apart lowerHalf ∧
      (((0xdeadbeef : Word).setBits 16 31 0x51234).bits 16 31).toNat = 0x1234 ∧
      ((0xdeadbeef : Word).setBits 16 31 0x51234).bits 0 15 = 0xbeef ∧
      ((0xdeadbeef : Word).setBits 16 31 0x51234).setBits 0 15 0x95678 =
        ((0xdeadbeef : Word).setBits 0 15 0x95678).setBits 16 31 0x51234 := by
  have hapart : upperHalf.Apart lowerHalf := apart_iff.2 (by decide)
  obtain ⟨hread, -, -, hothers, -, -⟩ := lawful upperHalf 0xdeadbeef 0x51234 0x95678
  obtain ⟨hkept, horder⟩ := hothers lowerHalf hapart
  exact ⟨hapart, hread, hkept, horder⟩

end BitRange

end Mips
