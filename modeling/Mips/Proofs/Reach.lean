import Mathlib.Algebra.Ring.Nat
import Mips.Proofs.Number
import Mips.Proofs.Value

/-!
# What branches and jumps can reach

An operand of a branch or a jump that refers to an address is where to go. A branch gets there if
the distance from the word behind it has a field, and a jump if it stays in its region; the field is
then exact, whatever the upper bits of the address are. An operand without a label and without the
address of its line is no address: the field is taken from it as it is (`reach_assemble`).

    operand       field of a branch             field of a jump
    an address    (goal - (origin + 4)) / 4     goal / 4
    a number      the number                    the number
-/

namespace Mips

/-- A number that is no address is taken as it is. -/
theorem OperandKind.amount_of_not_hasAddress {kind : OperandKind}
    (hkind : kind = .offset ∨ kind = .target) {names : SymbolTable} {expr : Expr}
    (h : ¬ expr.HasAddress names) (address origin v : Word) :
    kind.amount ⟨names, address, origin⟩ expr v = v := by
  have hlabel : ¬ expr.hasLabel names = true := fun hlabel => h (expr.hasLabel_iff.1 hlabel)
  rcases hkind with rfl | rfl
  · exact if_neg hlabel
  · exact if_neg hlabel

/-! ### Distances -/

namespace Instruction

theorem signedImm_of_bounds {i : Instruction} {n : Word} (himm : i.imm = n.low 16)
    (hlow : -32768 ≤ n.toInt) (hhigh : n.toInt < 32768) : i.signedImm = n.toInt := by
  have hn := n.isLt
  rw [signedImm_eq himm]
  rw [BitVec.toInt_eq_toNat_cond] at hlow hhigh ⊢
  split at hlow <;> split <;> omega

/-- A distance of at most 32768 words in either direction is four times the number for the field of
a branch. -/
theorem route_of_distance {origin goal : Word} {d : Int}
    (hd : goal - (origin + 4) = BitVec.ofInt 32 d) (hmod : d % 4 = 0) (hlow : -32768 ≤ d / 4)
    (hhigh : d / 4 ≤ 32767) :
    (goal - (origin + 4)).toInt = d ∧ (OperandKind.offset.route origin goal).toInt = d / 4 := by
  have hdistance : (goal - (origin + 4)).toInt = d := by
    rw [hd, BitVec.toInt_ofInt]
    exact Int.bmod_eq_of_le (by omega) (by omega)
  have halign : (goal - (origin + 4)).toNat % 4 = 0 := by
    rw [BitVec.toInt_eq_toNat_cond] at hdistance
    split at hdistance <;> omega
  have hwords := toInt_eq_four_mul halign
  refine ⟨hdistance, ?_⟩
  change ((goal - (origin + 4)).sshiftRight 2).toInt = d / 4
  omega

/-- A jump reaches every aligned address of its region. -/
theorem jumpTo_of_region {a t : Word} {i : Instruction} (halign : t.toNat % 4 = 0)
    (hregion : t.toNat / 2 ^ 28 = (a + 4).toNat / 2 ^ 28)
    (htarget : i.target = Word.low (t >>> 2) 26) : i.jumpTo a = t := by
  have hmask : ∀ k < 32, (0xf0000000 : Word).getLsbD k = decide (28 ≤ k) := by decide
  apply BitVec.eq_of_getLsbD_eq
  intro k hk
  rw [jumpTo, BitVec.getLsbD_or, BitVec.getLsbD_and, hmask k hk, BitVec.getLsbD_shiftLeft, htarget,
    Word.getLsbD_low, BitVec.getLsbD_ushiftRight]
  by_cases hhigh : 28 ≤ k
  · -- from bit 28 on the address behind the jump has the bits of the goal
    have hbit := congrArg (fun x => x.testBit (k - 28)) hregion
    simp only [Nat.testBit_div_two_pow] at hbit
    have hgoal : t.getLsbD k = (a + 4 : Word).getLsbD k := by
      rw [BitVec.getLsbD, BitVec.getLsbD]
      rwa [show k - 28 + 28 = k by omega] at hbit
    have hfield : ¬ k - 2 < 26 := by omega
    simp [hhigh, hfield, hgoal]
  · by_cases hlow : k < 2
    · -- the goal is aligned
      have hbit := Nat.testBit_mod_two_pow t.toNat 2 k
      rw [show t.toNat % 2 ^ 2 = 0 from halign, Nat.zero_testBit] at hbit
      have hzero : t.toNat.testBit k = false := by simpa [hlow] using hbit.symm
      simp [hhigh, hlow, BitVec.getLsbD, hzero]
    · have hfield : k - 2 < 26 := by omega
      have hindex : 2 + (k - 2) = k := by omega
      simp [hhigh, hlow, hfield, hindex, hk]

end Instruction

/-! ### The transfers of a source -/

/-- A branch over at most 32768 words to an address is not cut and gets there, and a jump to an
aligned address of its region gets there. What is no address is in the field as it is. -/
theorem reach_assemble (source : String) (settings : Settings) :
    let l := Listing.ofLines settings (Source.read source).lines
    ∃ a, assemble source settings = .ok a ∧ ∀ row ∈ l.rows, ∀ origin expr goal,
      (row.Operates a.module.symbols .offset origin expr goal →
        expr.HasAddress a.module.symbols → ∀ d : Int, goal - (origin + 4) = BitVec.ofInt 32 d →
        d % 4 = 0 → -32768 ≤ d / 4 → d / 4 ≤ 32767 →
        a.cuts row.line.number = 0 ∧
        ∃ i, a.module.HasAt row.place origin i ∧ 4 * i.signedImm = d ∧ i.branchTo origin = goal) ∧
      (row.Operates a.module.symbols .target origin expr goal →
        expr.HasAddress a.module.symbols → goal.toNat % 4 = 0 →
        goal.toNat / 2 ^ 28 = (origin + 4).toNat / 2 ^ 28 →
        ∃ i, a.module.HasAt row.place origin i ∧ i.jumpTo origin = goal) ∧
      ∀ kind, kind = .offset ∨ kind = .target →
        row.Operates a.module.symbols kind origin expr goal →
        ¬ expr.HasAddress a.module.symbols →
        ∃ i, a.module.HasAt row.place origin i ∧
          (kind.read i).toNat = goal.toNat % 2 ^ kind.width := by
  intro l
  obtain ⟨a, ha⟩ := exists_assembly source settings
  refine ⟨a, ha, fun row hrow origin expr goal => ?_⟩
  rw [module_assemble ha]
  refine ⟨?_, ?_, ?_⟩
  · intro hoperates haddress d hd hmod hlow hhigh
    have hn := (OperandKind.amount_eq_route (Or.inl rfl) (expr.hasLabel_iff.2 haddress)
      row.address origin goal).symm
    obtain ⟨hdistance, hwords⟩ := Instruction.route_of_distance hd hmod hlow hhigh
    obtain ⟨i, hat, himm⟩ := Listing.field_of_operates hrow rfl hoperates hn
    have hoffset := Instruction.signedImm_of_bounds himm (by omega) (by omega)
    have hbytes : 4 * i.signedImm = d := by omega
    refine ⟨?_, i, hat, hbytes, Instruction.branchTo_eq_iff.2 (hbytes.trans hdistance.symm)⟩
    rw [Assembly.cuts_of_operates ha rfl hrow rfl hoperates hn, if_neg]
    rintro ⟨-, hloses⟩
    exact hloses rfl ((Word.signExtend_setWidth_eq_iff _).2 (by omega))
  · intro hoperates haddress halign hregion
    have hn := (OperandKind.amount_eq_route (Or.inr rfl) (expr.hasLabel_iff.2 haddress)
      row.address origin goal).symm
    obtain ⟨i, hat, htarget⟩ := Listing.field_of_operates hrow rfl hoperates hn
    exact ⟨i, hat, Instruction.jumpTo_of_region halign hregion htarget⟩
  · intro kind hkind hoperates haddress
    have hfield : ∃ field, kind.field? = some field := by
      rcases hkind with rfl | rfl <;> exact ⟨_, rfl⟩
    obtain ⟨field, hfield⟩ := hfield
    have hn := (OperandKind.amount_of_not_hasAddress hkind haddress row.address origin goal).symm
    obtain ⟨i, hat, hread⟩ := Listing.field_of_operates hrow hfield hoperates hn
    exact ⟨i, hat, by rw [hread, Word.toNat_low]⟩

/-- A branch in the second word of its line and a jump go back to a label, and a number of 17 bits
is cut to the field of a branch. -/
theorem near_goals_reached :
    ∃ a, assemble "top: blt $t0, $t1, top\nj top\nb 0x18000" {} = .ok a ∧
      (a.cuts 1 = 0 ∧ ∃ i, a.module.HasAt .text 0x400004 i ∧ 4 * i.signedImm = -8 ∧
        i.branchTo 0x400004 = 0x400000) ∧
      (∃ i, a.module.HasAt .text 0x400008 i ∧ i.jumpTo 0x400008 = 0x400000) ∧
      ∃ i, a.module.HasAt .text 0x40000c i ∧ i.imm.toNat = 0x8000 := by
  obtain ⟨a, ha, hreach⟩ := reach_assemble "top: blt $t0, $t1, top\nj top\nb 0x18000" {}
  rw [module_assemble ha] at hreach
  have hbranch := (hreach ⟨⟨1, some "top", some (.instruction "blt" [⟨.register "t0", "$t0"⟩,
      ⟨.comma, ","⟩, ⟨.register "t1", "$t1"⟩, ⟨.comma, ","⟩, ⟨.name "top", "top"⟩])⟩, .text, 0x400000,
    .instruction (.pseudo "blt" .blt [.rs, .rt, .offset]) [⟨.register "t0", "$t0"⟩, ⟨.comma, ","⟩,
      ⟨.register "t1", "$t1"⟩, ⟨.comma, ","⟩, ⟨.name "top", "top"⟩]⟩ (by decide +kernel)
    0x400004 (.symbol "top") 0x400000).1 ⟨_, _, [⟨.name "top", "top"⟩], rfl, by decide +kernel,
      by decide +kernel, by decide, by decide +kernel, by decide +kernel⟩
    (Or.inr ⟨"top", by simp [Expr.parts], by decide +kernel⟩) (-8) (by decide) (by decide)
    (by decide) (by decide)
  have hjump := (hreach ⟨⟨2, none, some (.instruction "j" [⟨.name "top", "top"⟩])⟩, .text, 0x400008,
    .instruction (.real "j" (.jump 2) [.target]) [⟨.name "top", "top"⟩]⟩ (by decide +kernel)
    0x400008 (.symbol "top") 0x400000).2.1 ⟨_, _, [⟨.name "top", "top"⟩], rfl, by decide +kernel,
      by decide +kernel, by decide, by decide +kernel, by decide +kernel⟩
    (Or.inr ⟨"top", by simp [Expr.parts], by decide +kernel⟩) (by decide) (by decide)
  have hraw := (hreach ⟨⟨3, none, some (.instruction "b" [⟨.number 0x18000, "0x18000"⟩])⟩, .text,
    0x40000c, .instruction (.pseudo "b" .b [.offset]) [⟨.number 0x18000, "0x18000"⟩]⟩
    (by decide +kernel) 0x40000c (.number 0x18000) 0x18000).2.2 .offset (Or.inl rfl)
    ⟨_, _, [⟨.number 0x18000, "0x18000"⟩], rfl, by decide +kernel, by decide +kernel, by decide,
      by decide +kernel, rfl⟩ (by rintro (h | ⟨name, h, -⟩) <;> simp [Expr.parts] at h)
  rw [← module_assemble ha] at hbranch hjump hraw
  exact ⟨a, ha, hbranch, hjump, hraw⟩

end Mips
