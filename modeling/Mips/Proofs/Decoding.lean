import Mips.Machine.Instruction
import Mips.Proofs.Module
import Mips.Proofs.Word

/-!
# Fields of an encoded instruction

A layout is a list of slots, ranges of bits with the words that go there, and an instruction is
encoded by filling the slots one after the other. The slots of a layout lie apart from each other,
so each of them keeps what was put into it, cut to its width, whatever the others are filled with
(`bits_encode`).

    register    31─26 = 0   25─21 rs   20─16 rt          15─11 rd   10─6 shift   5─0 funct
    immediate   31─26 op    25─21 rs   20─16 rt          15─0 imm
    jump        31─26 op    25─0 target
    branch      31─26 = 1   25─21 rs   20─16 condition   15─0 imm
-/

namespace Mips

/-! ### Slots -/

/-- A range of bits, and the word that goes there. -/
structure Slot where
  lo : Nat
  hi : Nat
  value : Word

namespace Slot

/-- The bits of a slot are bits of a word. -/
def Valid (s : Slot) : Prop := s.lo ≤ s.hi ∧ s.hi < 32

/-- No bit is in both slots. -/
def Apart (s t : Slot) : Prop := s.hi < t.lo ∨ t.hi < s.lo

/-- The word with the slots filled in their order. -/
def fill (slots : List Slot) (x : Word) : Word :=
  slots.foldl (fun x s => x.setBits s.lo s.hi s.value) x

/-- A range that no slot touches is as before. -/
theorem bits_fill_of_apart {lo hi : Nat} (hle : lo ≤ hi) {slots : List Slot}
    (hslots : ∀ s ∈ slots, s.Valid ∧ (hi < s.lo ∨ s.hi < lo)) (x : Word) :
    (fill slots x).bits lo hi = x.bits lo hi := by
  induction slots generalizing x with
  | nil => rfl
  | cons s slots ih =>
    obtain ⟨hvalid, hapart⟩ := hslots s List.mem_cons_self
    have hrest := ih (fun t ht => hslots t (List.mem_cons_of_mem s ht))
    exact (hrest _).trans (Word.bits_setBits_of_disjoint x s.value hle hvalid.1 hapart)

/-- Slots that lie apart keep what they were filled with, up to their width. -/
theorem bits_fill {slots : List Slot} (hvalid : ∀ s ∈ slots, s.Valid)
    (hapart : slots.Pairwise Apart) (x : Word) :
    ∀ s ∈ slots, (fill slots x).bits s.lo s.hi = s.value.low (s.hi - s.lo + 1) := by
  induction slots generalizing x with
  | nil => simp
  | cons s slots ih =>
    obtain ⟨hfirst, hrest⟩ := List.pairwise_cons.1 hapart
    have hvalid' : ∀ t ∈ slots, t.Valid := fun t ht => hvalid t (List.mem_cons_of_mem s ht)
    obtain ⟨hle, hlt⟩ := hvalid s List.mem_cons_self
    intro t ht
    rcases List.mem_cons.1 ht with rfl | ht
    · -- the slots behind it do not touch the first one
      have hkept := bits_fill_of_apart hle (fun u hu => ⟨hvalid' u hu, hfirst u hu⟩)
        (x.setBits t.lo t.hi t.value)
      exact hkept.trans (Word.bits_setBits_self x t.value hle hlt)
    · exact ih hvalid' hrest _ t ht

end Slot

namespace Format

/-- The slots of a layout, in the order in which they are filled. -/
def slots (o : Operands) : Format → List Slot
  | .register funct =>
    [⟨0, 5, funct⟩, ⟨11, 15, o.rd.toWord⟩, ⟨21, 25, o.rs.toWord⟩, ⟨16, 20, o.rt.toWord⟩,
      ⟨6, 10, o.shift⟩]
  | .immediate op => [⟨26, 31, op⟩, ⟨21, 25, o.rs.toWord⟩, ⟨16, 20, o.rt.toWord⟩, ⟨0, 15, o.imm⟩]
  | .jump op => [⟨26, 31, op⟩, ⟨0, 25, o.imm⟩]
  | .branch condition =>
    [⟨26, 31, 1⟩, ⟨16, 20, condition⟩, ⟨21, 25, o.rs.toWord⟩, ⟨0, 15, o.imm⟩]

theorem valid_slots (f : Format) (o : Operands) : ∀ s ∈ f.slots o, s.Valid := by
  cases f <;> simp [slots, Slot.Valid]

theorem apart_slots (f : Format) (o : Operands) : (f.slots o).Pairwise Slot.Apart := by
  cases f <;> simp [slots, Slot.Apart]

end Format

/-! ### Registers and bytes -/

theorem Register.toNat_toWord (r : Register) : r.toWord.toNat = r.number.toNat := by
  rw [toWord, BitVec.toNat_setWidth]
  exact Nat.mod_eq_of_lt (Nat.lt_trans r.number.isLt (by decide))

/-- The register in a slot of five bits. -/
theorem Register.toNat_number_ofWord (x : Word) :
    (ofWord (x.low 5)).number.toNat = x.toNat % 2 ^ 5 := by
  rw [ofWord, BitVec.toNat_setWidth, Word.toNat_low]
  omega

theorem Word.toNat_eq_bytes (x : Word) :
    x.toNat = (x.byteAt 24).toNat * 2 ^ 24 + (x.byteAt 16).toNat * 2 ^ 16 +
      (x.byteAt 8).toNat * 2 ^ 8 + (x.byteAt 0).toNat := by
  have hx := x.isLt
  simp only [byteAt_eq, UInt8.toNat_ofNat', Nat.shiftRight_eq_div_pow]
  omega

/-- The bytes of a word make up the word. -/
theorem Word.ofBytes_bytes (x : Word) :
    ofBytes (x.byteAt 24) (x.byteAt 16) (x.byteAt 8) (x.byteAt 0) = x := by
  apply BitVec.eq_of_toNat_eq
  rw [toNat_ofBytes, x.toNat_eq_bytes]
  omega

namespace Instruction

/-! ### Instructions -/

theorem word_encode (f : Format) (o : Operands) : (encode f o).word = Slot.fill (f.slots o) 0 := by
  cases f <;> rfl

theorem bits_encode {f : Format} {o : Operands} {s : Slot} (h : s ∈ f.slots o) :
    (encode f o).word.bits s.lo s.hi = s.value.low (s.hi - s.lo + 1) := by
  rw [word_encode]
  exact Slot.bits_fill (f.valid_slots o) (f.apart_slots o) 0 s h

/-- A slot for a number gives it back, cut to the width of the slot. -/
theorem toNat_bits_encode {f : Format} {o : Operands} {s : Slot} (h : s ∈ f.slots o) :
    ((encode f o).word.bits s.lo s.hi).toNat = s.value.toNat % 2 ^ (s.hi - s.lo + 1) := by
  rw [bits_encode h, Word.toNat_low]

/-- A slot for a register gives it back, cut to five bits. -/
theorem toNat_register_encode {f : Format} {o : Operands} {r : Register} (lo : Nat)
    (h : ⟨lo, lo + 4, r.toWord⟩ ∈ f.slots o) :
    (Register.ofWord ((encode f o).word.bits lo (lo + 4))).number.toNat =
      r.number.toNat % 2 ^ 5 := by
  have hbits := bits_encode h
  rw [Nat.add_sub_cancel_left] at hbits
  rw [hbits, Register.toNat_number_ofWord, Register.toNat_toWord]

/-- The immediate value read as a number with sign. -/
theorem signedImm_eq_imm (i : Instruction) :
    i.signedImm =
      if i.imm.toNat < 0x8000 then (i.imm.toNat : Int) else i.imm.toNat - 0x10000 := by
  have hlt : i.imm.toNat < 2 ^ 16 := i.word.toNat_bits_lt 0 15
  rw [signedImm, BitVec.toInt_eq_toNat_cond, BitVec.toNat_setWidth, Nat.mod_eq_of_lt hlt]
  split <;> split <;> omega

/-- What the fields of an instruction show that has the given layout and operands: the code and the
operands, each cut to the width of its field. -/
def Shows (i : Instruction) (o : Operands) : Format → Prop
  | .register funct =>
    i.op = 0 ∧ i.funct.toNat = funct.toNat % 2 ^ 6 ∧
      i.rd.number.toNat = o.rd.number.toNat % 2 ^ 5 ∧
      i.rs.number.toNat = o.rs.number.toNat % 2 ^ 5 ∧
      i.rt.number.toNat = o.rt.number.toNat % 2 ^ 5 ∧ i.shift.toNat = o.shift.toNat % 2 ^ 5
  | .immediate op =>
    i.op.toNat = op.toNat % 2 ^ 6 ∧ i.rs.number.toNat = o.rs.number.toNat % 2 ^ 5 ∧
      i.rt.number.toNat = o.rt.number.toNat % 2 ^ 5 ∧ i.imm.toNat = o.imm.toNat % 2 ^ 16
  | .jump op => i.op.toNat = op.toNat % 2 ^ 6 ∧ i.target.toNat = o.imm.toNat % 2 ^ 26
  | .branch condition =>
    i.op = 1 ∧ i.rt.number.toNat = condition.toNat % 2 ^ 5 ∧
      i.rs.number.toNat = o.rs.number.toNat % 2 ^ 5 ∧ i.imm.toNat = o.imm.toNat % 2 ^ 16

theorem shows_encode (f : Format) (o : Operands) : (encode f o).Shows o f := by
  cases f with
  | register funct =>
    have hop : (encode (.register funct) o).op = 0 := by
      rw [op, word_encode, Slot.bits_fill_of_apart (by decide)]
      · rfl
      · simp [Format.slots, Slot.Valid]
    refine ⟨hop, ?_, ?_, ?_, ?_, ?_⟩
    · exact toNat_bits_encode (s := ⟨0, 5, funct⟩) (by simp [Format.slots])
    · exact toNat_register_encode 11 (by simp [Format.slots])
    · exact toNat_register_encode 21 (by simp [Format.slots])
    · exact toNat_register_encode 16 (by simp [Format.slots])
    · exact toNat_bits_encode (s := ⟨6, 10, o.shift⟩) (by simp [Format.slots])
  | immediate op =>
    refine ⟨?_, ?_, ?_, ?_⟩
    · exact toNat_bits_encode (s := ⟨26, 31, op⟩) (by simp [Format.slots])
    · exact toNat_register_encode 21 (by simp [Format.slots])
    · exact toNat_register_encode 16 (by simp [Format.slots])
    · exact toNat_bits_encode (s := ⟨0, 15, o.imm⟩) (by simp [Format.slots])
  | jump op =>
    refine ⟨?_, ?_⟩
    · exact toNat_bits_encode (s := ⟨26, 31, op⟩) (by simp [Format.slots])
    · exact toNat_bits_encode (s := ⟨0, 25, o.imm⟩) (by simp [Format.slots])
  | branch condition =>
    have hop : (encode (.branch condition) o).op = Word.low 1 6 :=
      bits_encode (s := ⟨26, 31, 1⟩) (by simp [Format.slots])
    have hcondition := bits_encode (f := .branch condition) (o := o) (s := ⟨16, 20, condition⟩)
      (by simp [Format.slots])
    refine ⟨hop, ?_, ?_, ?_⟩
    · exact (congrArg (fun x => (Register.ofWord x).number.toNat) hcondition).trans
        (Register.toNat_number_ofWord condition)
    · exact toNat_register_encode 21 (by simp [Format.slots])
    · exact toNat_bits_encode (s := ⟨0, 15, o.imm⟩) (by simp [Format.slots])

/-- Every field of an encoded instruction shows what was put there, cut to its width. The immediate
value is read with its sign, and the bytes of the instruction, the most significant first, make up
its word. -/
theorem fields_encode (f : Format) (o : Operands) :
    (encode f o).Shows o f ∧
      ((encode f o).signedImm = if (encode f o).imm.toNat < 0x8000 then
        ((encode f o).imm.toNat : Int) else (encode f o).imm.toNat - 0x10000) ∧
      ∃ a b c d, (encode f o).bytes = [a, b, c, d] ∧ Word.ofBytes a b c d = (encode f o).word ∧
        (encode f o).word.toNat =
          a.toNat * 2 ^ 24 + b.toNat * 2 ^ 16 + c.toNat * 2 ^ 8 + d.toNat := by
  exact ⟨shows_encode f o, signedImm_eq_imm _, _, _, _, _, rfl, Word.ofBytes_bytes _,
    Word.toNat_eq_bytes _⟩

end Instruction

end Mips
