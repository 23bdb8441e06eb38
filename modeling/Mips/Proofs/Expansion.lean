import Mips.Proofs.Execution

/-!
# What expansions do

A pseudo-instruction stands for one effect, as if it were an instruction of its own: a value for a
register, or a branch under a condition (`Pseudo.effect`). A machine that carries out the words of
its expansion, one behind the other, has that effect in the end, for all contents of the registers
and whichever registers the operands are (`expansions_compute`). Only the scratch register may
change besides, and only where the expansion has to keep something.

The absolute value is the exception. Its registers are right, but the branch in the middle of the
expansion goes one word too far, so a machine whose value is not negative leaves out the word behind
the expansion (`abs_overshoots`):

    origin        addu rt, rs, $zero
    origin + 4    bgez rs, 2           ──┐
    origin + 8    sub rt, $zero, rs      │
    origin + 12   the word behind        │
    origin + 16                        ◀─┘
-/

namespace Mips

open Instruction Processor

/-! ### Values -/

namespace Word

/-- The two halves of a word, put together again. -/
theorem shiftLeft_or_bits (x : Word) :
    (x.bits 16 31).low 16 <<< 16 ||| (x.bits 0 15).low 16 = x := by
  apply BitVec.eq_of_getLsbD_eq
  intro i hi
  rw [BitVec.getLsbD_or, BitVec.getLsbD_shiftLeft, getLsbD_low, getLsbD_low, getLsbD_bits,
    getLsbD_bits]
  by_cases hlow : i < 16
  · have hle : i ≤ 15 := by omega
    simp [hlow, hle]
  · have hle : i - 16 ≤ 15 := by omega
    have hlt : i - 16 < 16 := by omega
    have hsum : 16 + (i - 16) = i := by omega
    simp [hlow, hle, hlt, hsum, hi]

theorem natAbs_toInt_of_neg {x : Word} (h : x.toInt < 0) : BitVec.ofNat 32 x.toInt.natAbs = -x := by
  have hx := x.isLt
  apply BitVec.eq_of_toNat_eq
  rw [BitVec.toNat_ofNat, BitVec.toNat_neg]
  rw [BitVec.toInt_eq_toNat_cond] at h ⊢
  split at h <;> omega

theorem natAbs_toInt_of_nonneg {x : Word} (h : 0 ≤ x.toInt) :
    BitVec.ofNat 32 x.toInt.natAbs = x := by
  have hx := x.isLt
  apply BitVec.eq_of_toNat_eq
  rw [BitVec.toNat_ofNat]
  rw [BitVec.toInt_eq_toNat_cond] at h ⊢
  split at h <;> omega

end Word

namespace Pseudo

/-! ### What pseudo-instructions stand for -/

/-- The name that a pseudo-instruction is written with. -/
def name : Pseudo → String
  | li => "li"
  | la => "la"
  | move => "move"
  | abs => "abs"
  | blt => "blt"
  | bgt => "bgt"
  | sge => "sge"
  | b => "b"
  | beqz => "beqz"
  | bnez => "bnez"
  | not => "not"
  | neg => "neg"

/-- The operands of a pseudo-instruction in the order they are written. -/
def operands : Pseudo → List OperandKind
  | li | la => [.rt, .full]
  | move | abs => [.rt, .rs]
  | blt | bgt => [.rs, .rt, .offset]
  | sge => [.rd, .rs, .rt]
  | b => [.offset]
  | beqz | bnez => [.rs, .offset]
  | not | neg => [.rd, .rs]

theorem ofName?_name (p : Pseudo) :
    Mnemonic.ofName? p.name = some (.pseudo p.name p p.operands) := by
  cases p <;> decide

/-- What a pseudo-instruction stands for on a machine with the registers `r`. Comparisons are those
of signed numbers. -/
def effect (p : Pseudo) (o : Operands) (r : Registers) : Effect :=
  let s := r.get o.rs.index
  let t := r.get o.rt.index
  match p with
  | li | la => .put o.rt.index o.imm
  | move => .put o.rt.index s
  | abs => .put o.rt.index (BitVec.ofNat 32 s.toInt.natAbs)
  | blt => .branch (s.toInt < t.toInt)
  | bgt => .branch (t.toInt < s.toInt)
  | sge => .put o.rd.index (if t.toInt ≤ s.toInt then 1 else 0)
  | b => .branch true
  | beqz => .branch (s == 0)
  | bnez => .branch (s != 0)
  | not => .put o.rd.index (~~~s)
  | neg => .put o.rd.index (-s)

/-- Whether the expansion keeps something in the scratch register. -/
def takesScratch (p : Pseudo) : Bool := p ∈ [.li, .la, .blt, .bgt]

/-- The machine `t` is what `p` at `origin`, with the operands `o`, is to leave of one with the
registers `r`. -/
structure Leaves (p : Pseudo) (o : Operands) (origin : Word) (r : Registers) (t : Processor) :
    Prop where
  value : ∀ x v, p.effect o r = .put x v → t.registers.get x = if x = 0 then 0 else v
  kept : ∀ x, (∀ v, p.effect o r ≠ .put x v) →
    (p.takesScratch = true → x ≠ Register.scratch.index) → t.registers.get x = r.get x
  falls : p.effect o r ≠ .branch true → t.pc = wordAt origin p.length
  goes : p.effect o r = .branch true → ∃ n, p.branchIndex? = some n ∧
    t.pc = wordAt origin n + 4 + BitVec.ofInt 32 (4 * (o.imm.setWidth 16).toInt)

/-- A machine that carries out the words of `p`, each of them once, is left as it should be. -/
def Computes (p : Pseudo) (o : Operands) (origin : Word) (r : Registers) : Prop :=
  ∃ t, run? (p.expand o) origin p.length ⟨origin, r⟩ = some t ∧ p.Leaves o origin r t

/-- The registers `q` are `r`, but for the scratch register where `p` takes it. -/
def Spares (p : Pseudo) (r q : Registers) : Prop :=
  ∀ x, (p.takesScratch = true → x ≠ Register.scratch.index) → q.get x = r.get x

variable {p : Pseudo} {o : Operands} {r q : Registers}

theorem Spares.refl : p.Spares r r := fun _ _ => rfl

theorem spares_set (h : p.takesScratch = true) (v : Word) :
    p.Spares r (r.set Register.scratch.index v) :=
  fun _ hx => r.get_set_of_ne _ v (hx h)

/-! ### Runs of expansions -/

/-- An expansion that ends by putting the value into its register. -/
theorem computes_of_puts (origin : Word) {x : BitVec 5} {v : Word}
    (hputs : puts? r (p.expand o) = some (q.set x v)) (hq : p.Spares r q)
    (he : p.effect o r = .put x v) :
    p.Computes o origin r := by
  have hlength := Mnemonic.length_expand p o
  have hroom : 4 * (0 + (p.expand o).length) ≤ 2 ^ 32 := by
    rw [hlength]
    cases p <;> decide
  have hrun := run?_puts origin [] [] hputs hroom 0
  simp only [List.nil_append, List.append_nil, List.length_nil, wordAt_zero, Nat.zero_add,
    Nat.add_zero, hlength] at hrun
  refine ⟨_, hrun, ?_, ?_, fun _ => rfl, fun h => ?_⟩
  · intro y w hput
    obtain ⟨rfl, rfl⟩ := Effect.put.inj (he.symm.trans hput)
    exact q.get_set_self x v
  · intro y hne hscratch
    have hyx : y ≠ x := by
      rintro rfl
      exact hne v he
    exact (q.get_set_of_ne x v hyx).trans (hq y hscratch)
  · simp [he] at h

/-- An expansion that ends with the branch. -/
theorem computes_of_branch (origin : Word) {before : List Instruction} {i : Instruction}
    {taken : Bool} (hexpand : p.expand o = before ++ [i])
    (hindex : p.branchIndex? = some before.length) (hputs : puts? r before = some q)
    (hq : p.Spares r q) (hi : i.effect? q = some (.branch taken))
    (hoffset : i.signedImm = (o.imm.setWidth 16).toInt) (he : p.effect o r = .branch taken) :
    p.Computes o origin r := by
  have hlength : p.length = before.length + 1 := by
    rw [← Mnemonic.length_expand p o, hexpand, List.length_append, List.length_singleton]
  have hshort : 4 * p.length ≤ 2 ^ 32 := by cases p <;> decide
  have hfirst := run?_puts origin [] [i] hputs (by rw [List.length_nil]; omega) 1
  simp only [List.nil_append, List.length_nil, wordAt_zero, Nat.zero_add, ← hlength] at hfirst
  have hrun := hfirst.trans (run?_branch origin (by omega) hi 0)
  rw [← hexpand] at hrun
  refine ⟨_, hrun, ?_, ?_, ?_, ?_⟩
  · intro x v hput
    simp [he] at hput
  · intro x _ hscratch
    exact hq x hscratch
  · intro hne
    have hfalse : taken = false := by simpa [he] using hne
    rw [hfalse, hlength]
    rfl
  · intro htrue
    have htaken : taken = true := by simpa [he] using htrue
    refine ⟨before.length, hindex, ?_⟩
    rw [htaken, ← hoffset]
    rfl

/-! ### What their words put into registers -/

theorem get_set_scratch (v : Word) :
    (r.set Register.scratch.index v).get Register.scratch.index = v :=
  (r.get_set_self _ v).trans (if_neg (by decide))

theorem puts?_register {funct v : Word} (h : (Format.register funct).isCoded = true)
    (hv : combine? funct (r.get o.rs.index) (r.get o.rt.index) = some v) :
    puts? r [.encode (.register funct) o] = some (r.set o.rd.index v) := by
  have heffect : (encode (.register funct) o).effect? r = some (.put o.rd.index v) := by
    rw [effect?_register r o h, hv]
    rfl
  exact puts?_cons heffect []

theorem puts?_copy (r : Registers) (x y : Register) :
    puts? r [.encode .addu { rd := x, rs := y, rt := .zero }] =
      some (r.set x.index (r.get y.index)) := by
  have hsum : r.get y.index + r.get Register.zero.index = r.get y.index := by
    simp [r.get_index_zero]
  exact puts?_register rfl (congrArg some hsum)

theorem puts?_complement (r : Registers) (x y : Register) :
    puts? r [.encode .nor { rd := x, rs := y, rt := .zero }] =
      some (r.set x.index (~~~(r.get y.index))) := by
  have hnor : ~~~(r.get y.index ||| r.get Register.zero.index) = ~~~(r.get y.index) := by
    simp [r.get_index_zero]
  exact puts?_register rfl (congrArg some hnor)

theorem puts?_negate (r : Registers) (x y : Register) :
    puts? r [.encode .sub { rd := x, rs := .zero, rt := y }] =
      some (r.set x.index (-(r.get y.index))) := by
  have hdifference : r.get Register.zero.index - r.get y.index = -(r.get y.index) := by
    simp [r.get_index_zero]
  exact puts?_register rfl (congrArg some hdifference)

theorem puts?_load (r : Registers) (x : Register) (v : Word) :
    puts? r [.encode .lui { rt := .scratch, imm := v.bits 16 31 },
        .encode .ori { rt := x, rs := .scratch, imm := v.bits 0 15 }] =
      some ((r.set Register.scratch.index ((v.bits 16 31).low 16 <<< 16)).set x.index v) := by
  rw [puts?_cons (effect?_immediate r _ rfl), puts?_cons (effect?_immediate _ _ rfl)]
  dsimp only
  rw [get_set_scratch, Word.shiftLeft_or_bits]
  rfl

/-- The outcome of the comparison is turned around in the place where it stands. -/
theorem puts?_atLeast (r : Registers) (x y z : Register) :
    puts? r [.encode .slt { rd := x, rs := y, rt := z },
        .encode .xori { rt := x, rs := x, imm := 1 }] =
      some (r.set x.index
        (if (r.get z.index).toInt ≤ (r.get y.index).toInt then 1 else 0)) := by
  rw [puts?_cons (effect?_register r _ rfl), puts?_cons (effect?_immediate _ _ rfl), puts?]
  dsimp only
  -- a comparison that goes into `$zero` is lost, so the second word does not turn it around
  by_cases hx : x.index = 0
  · rw [hx, Registers.set_zero, Registers.set_zero, Registers.set_zero]
  · rw [Registers.set_set, Registers.get_set_self, if_neg hx]
    by_cases hlt : (r.get y.index).toInt < (r.get z.index).toInt
    · rw [if_pos hlt, if_neg (by omega)]
      rfl
    · rw [if_neg hlt, if_pos (by omega)]
      rfl

/-! ### Branches -/

/-- A branch behind a comparison, whose outcome is in the scratch register. -/
theorem computes_of_comparison (origin : Word) {x y : Register}
    (hexpand : p.expand o = [.encode .slt { rd := .scratch, rs := x, rt := y },
      .encode .bne { rs := .scratch, rt := .zero, imm := o.imm }])
    (hindex : p.branchIndex? = some 1) (hscratch : p.takesScratch = true)
    (he : p.effect o r = .branch ((r.get x.index).toInt < (r.get y.index).toInt)) :
    p.Computes o origin r := by
  have hsplit : p.expand o = [_] ++ [_] := hexpand
  refine computes_of_branch origin hsplit hindex (puts?_register rfl rfl) (spares_set hscratch _) ?_
    (signedImm_encode rfl _) he
  refine (effect?_immediate _ _ rfl).trans ?_
  dsimp only
  rw [get_set_scratch, Registers.get_index_zero]
  by_cases hlt : (r.get x.index).toInt < (r.get y.index).toInt
  · rw [if_pos hlt, decide_eq_true hlt]
    rfl
  · rw [if_neg hlt, decide_eq_false hlt]
    rfl

/-- A branch that compares a register with `$zero`. -/
theorem computes_of_zero (origin : Word) {op : Word} {x : Register} {taken : Bool}
    (hcoded : (Format.immediate op).isCoded = true)
    (hexpand : p.expand o = [.encode (.immediate op) { rs := x, rt := .zero, imm := o.imm }])
    (hindex : p.branchIndex? = some 0)
    (htaken : immediateEffect? op (r.get x.index) 0 (o.imm.low 16) Register.zero.index =
      some (.branch taken)) (he : p.effect o r = .branch taken) :
    p.Computes o origin r := by
  have hsplit : p.expand o = [] ++ [_] := hexpand
  refine computes_of_branch origin hsplit hindex rfl Spares.refl ?_ (signedImm_encode rfl _) he
  rw [effect?_immediate _ _ hcoded, Registers.get_index_zero]
  exact htaken

/-! ### All but the absolute value -/

theorem computes_of_ne_abs (hp : p ≠ .abs) (o : Operands) (origin : Word) (r : Registers) :
    p.Computes o origin r := by
  cases p with
  | abs => exact absurd rfl hp
  | li | la => exact computes_of_puts origin (puts?_load r o.rt o.imm) (spares_set rfl _) rfl
  | move => exact computes_of_puts origin (puts?_copy r o.rt o.rs) Spares.refl rfl
  | not => exact computes_of_puts origin (puts?_complement r o.rd o.rs) Spares.refl rfl
  | neg => exact computes_of_puts origin (puts?_negate r o.rd o.rs) Spares.refl rfl
  | sge => exact computes_of_puts origin (puts?_atLeast r o.rd o.rs o.rt) Spares.refl rfl
  | b => exact computes_of_zero origin rfl rfl rfl (by rw [r.get_index_zero]; rfl) rfl
  | beqz | bnez => exact computes_of_zero origin rfl rfl rfl rfl rfl
  | blt | bgt => exact computes_of_comparison origin rfl rfl rfl rfl

/-- What is written with the name of a pseudo-instruction other than `abs` takes the operands that
it should, and a machine that carries out its words, each of them once, has the effect that the
pseudo-instruction stands for. -/
theorem expansions_compute (p : Pseudo) (hp : p ≠ .abs) :
    ∃ m, Mnemonic.ofName? p.name = some m ∧ m.operands = p.operands ∧
      ∀ (o : Operands) (origin : Word) (r : Registers),
        ∃ t, run? (m.words o) origin (m.words o).length ⟨origin, r⟩ = some t ∧
          p.Leaves o origin r t := by
  refine ⟨_, p.ofName?_name, rfl, ?_⟩
  intro o origin r
  obtain ⟨t, hrun, ht⟩ := computes_of_ne_abs hp o origin r
  refine ⟨t, ?_, ht⟩
  rw [show (Mnemonic.pseudo p.name p p.operands).words o = p.expand o from rfl,
    Mnemonic.length_expand]
  exact hrun

/-- The first register of `blt $at, $zero, -2` is the one that the comparison goes into. The branch
is taken all the same, back to where the expansion starts. -/
theorem blt_of_scratch :
    ∃ m t, Mnemonic.ofName? "blt" = some m ∧
      run? (m.words { rs := .scratch, rt := .zero, imm := 0xfffe }) 0x400000 2
        ⟨0x400000, Registers.cleared.set 1 (-1)⟩ = some t ∧ t.pc = 0x400000 := by
  obtain ⟨m, hm, -, hcompute⟩ := expansions_compute .blt (by decide)
  obtain ⟨t, hrun, ht⟩ := hcompute { rs := .scratch, rt := .zero, imm := 0xfffe } 0x400000
    (Registers.cleared.set 1 (-1))
  obtain rfl := Option.some.inj (hm.symm.trans (ofName?_name .blt))
  obtain ⟨n, hn, hpc⟩ := ht.goes rfl
  obtain rfl := Option.some.inj hn
  exact ⟨_, t, hm, hrun, hpc.trans (by decide)⟩

/-! ### The absolute value -/

/-- The branch of the absolute value leaves out two words. -/
theorem branchTo_abs (origin : Word) (x : Register) :
    (Instruction.encode .bgez { rs := x, imm := 2 }).branchTo (wordAt origin 1) =
      wordAt origin 4 := by
  have hoffset : (Instruction.encode .bgez { rs := x, imm := 2 }).signedImm = 2 :=
    signedImm_encode rfl _
  rw [branchTo, hoffset, wordAt_succ origin 3, wordAt_succ origin 2, wordAt_succ origin 1,
    BitVec.add_assoc (_ + 4)]
  rfl

theorem ends_abs (o : Operands) (origin : Word) (r : Registers) :
    Ends (abs.expand o) origin ⟨origin, r⟩
      ⟨if (r.get o.rs.index).toInt < 0 then wordAt origin 3 else wordAt origin 4,
        r.set o.rt.index (BitVec.ofNat 32 (r.get o.rs.index).toInt.natAbs)⟩ := by
  have hfirst := run?_puts origin [] [.encode .bgez { rs := o.rs, imm := 2 },
    .encode .sub { rd := o.rt, rs := .zero, rt := o.rs }] (puts?_copy r o.rt o.rs) (by simp)
  rw [List.length_nil, wordAt_zero] at hfirst
  -- the copy leaves the source as it was, even where it goes into the source itself
  have hsource := r.get_set_get o.rt.index o.rs.index
  have htest : (encode .bgez { rs := o.rs, imm := 2 }).effect?
      (r.set o.rt.index (r.get o.rs.index)) = some (.branch (0 ≤ (r.get o.rs.index).toInt)) := by
    refine (effect?_branch _ _ rfl).trans ?_
    rw [hsource]
    rfl
  by_cases hneg : (r.get o.rs.index).toInt < 0
  · rw [if_pos hneg, Word.natAbs_toInt_of_neg hneg]
    rw [decide_eq_false (by omega)] at htest
    have hlast := puts?_negate (r.set o.rt.index (r.get o.rs.index)) o.rt o.rs
    rw [hsource, Registers.set_set] at hlast
    refine ⟨3, ?_, fetch?_of_length_le (show 3 ≤ 3 by decide) (by decide)⟩
    refine ((hfirst 2).trans (run?_branch origin (by simp) htest 1)).trans ?_
    exact run?_puts origin [_, _] [] hlast (by simp) 0
  · rw [if_neg hneg, Word.natAbs_toInt_of_nonneg (by omega)]
    rw [decide_eq_true (by omega)] at htest
    refine ⟨2, ?_, fetch?_of_length_le (show 3 ≤ 4 by decide) (by decide)⟩
    refine ((hfirst 1).trans (run?_branch origin (by simp) htest 0)).trans ?_
    exact congrArg (fun pc => some (Processor.mk pc _)) (branchTo_abs origin o.rs)

/-- A machine that carries out the words of an absolute value leaves them in one way only. The value
is in its register and nothing else has changed, but a value that is not negative takes the machine
one word too far. -/
theorem abs_overshoots (o : Operands) (origin : Word) (r : Registers) :
    ∃ m t, Mnemonic.ofName? "abs" = some m ∧ m.operands = [.rt, .rs] ∧
      (∀ t', Ends (m.words o) origin ⟨origin, r⟩ t' ↔ t' = t) ∧
      (∀ x, t.registers.get x =
        if x = o.rt.index ∧ x ≠ 0 then BitVec.ofNat 32 (r.get o.rs.index).toInt.natAbs
        else r.get x) ∧
      t.pc = if (r.get o.rs.index).toInt < 0 then origin + 12 else origin + 16 := by
  have hends := ends_abs o origin r
  refine ⟨_, _, ofName?_name .abs, rfl, fun t' => ⟨fun h => h.unique hends, ?_⟩, fun _ => rfl, rfl⟩
  rintro rfl
  exact hends

/-- With zero in all registers, a machine that carries out `abs $t0, $t1` does not end at the word
behind it. -/
theorem abs_misses_next_word :
    ¬ ∃ t, Ends (abs.expand { rt := ⟨8⟩, rs := ⟨9⟩ }) 0x400000 ⟨0x400000, .cleared⟩ t ∧
      t.pc = 0x40000c := by
  rintro ⟨t, hends, hpc⟩
  obtain rfl := hends.unique (ends_abs _ _ _)
  exact absurd hpc (by decide)

end Pseudo

end Mips
