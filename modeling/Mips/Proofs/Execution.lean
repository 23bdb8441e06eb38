import Mathlib.Data.Bool.Basic
import Mathlib.Data.List.Basic
import Mips.Proofs.Mask
import Mips.Proofs.Target

/-!
# A machine for expansions

What the instructions of expansions do, told from their bits: an instruction puts a value into a
register and goes on with the word behind it, or it branches. There are 32 registers, of which the
first is zero and stays so. Branches have no delay slot, and differences wrap around without a trap.
A machine carries out the words that stand from an address on, and ends where there is none of them.

    words[0]   origin         put: pc + 4
    words[1]   origin + 4     branch: pc + 4, or pc + 4 + 4 * offset if it is taken
    words[2]   origin + 8
               anywhere else  the end
-/

namespace Mips

/-! ### Registers -/

/-- The number of a register in a field of five bits. -/
def Register.index (x : Register) : BitVec 5 := x.number.setWidth 5

/-- What the registers hold. -/
structure Registers where
  get : BitVec 5 → Word
  get_zero : get 0 = 0

namespace Registers

/-- Zero everywhere. -/
def cleared : Registers := ⟨fun _ => 0, rfl⟩

/-- The registers with `v` in `x`. Nothing can be put into the first one. -/
def set (r : Registers) (x : BitVec 5) (v : Word) : Registers where
  get y := if y = x ∧ y ≠ 0 then v else r.get y
  get_zero := (if_neg fun h => h.2 rfl).trans r.get_zero

variable (r : Registers) (x : BitVec 5) (v : Word)

theorem get_index_zero : r.get Register.zero.index = 0 := r.get_zero

theorem get_set_self : (r.set x v).get x = if x = 0 then 0 else v := by
  by_cases h : x = 0
  · subst h
    exact (r.set 0 v).get_zero
  · rw [if_neg h]
    exact if_pos ⟨rfl, h⟩

theorem get_set_of_ne {y : BitVec 5} (h : y ≠ x) : (r.set x v).get y = r.get y :=
  if_neg fun hy => h hy.1

/-- A register keeps its value when that is what a register is set to. -/
theorem get_set_get (y : BitVec 5) : (r.set x (r.get y)).get y = r.get y := by
  by_cases h : y = x
  · subst h
    rw [get_set_self]
    split
    · next hzero => rw [hzero, r.get_zero]
    · rfl
  · exact r.get_set_of_ne x _ h

theorem set_zero : r.set 0 v = r := by
  obtain ⟨get, hzero⟩ := r
  simp only [set, mk.injEq]
  funext y
  exact if_neg fun h => h.2 h.1

theorem set_set (w : Word) : (r.set x v).set x w = r.set x w := by
  simp only [set, mk.injEq]
  funext y
  by_cases h : y = x ∧ y ≠ 0
  · rw [if_pos h, if_pos h]
  · rw [if_neg h, if_neg h, if_neg h]

end Registers

/-! ### Instructions -/

/-- What an instruction does. -/
inductive Effect where
  /-- Put a value into a register and go on. -/
  | put (x : BitVec 5) (v : Word)
  /-- Branch, if the condition holds. -/
  | branch (taken : Bool)

namespace Instruction

/-- What an instruction of the register layout makes of the values of its two sources. -/
def combine? (funct s t : Word) : Option Word :=
  match funct with
  | 0x21 => some (s + t) -- addu
  | 0x22 => some (s - t) -- sub
  | 0x27 => some (~~~(s ||| t)) -- nor
  | 0x2a => some (if s.toInt < t.toInt then 1 else 0) -- slt
  | _ => none

/-- What an instruction of the immediate layout does with the values of its registers, where `x` is
the one that it can put something into. -/
def immediateEffect? (op s t imm : Word) (x : BitVec 5) : Option Effect :=
  match op with
  | 0x04 => some (.branch (s == t)) -- beq
  | 0x05 => some (.branch (s != t)) -- bne
  | 0x0d => some (.put x (s ||| imm)) -- ori
  | 0x0e => some (.put x (s ^^^ imm)) -- xori
  | 0x0f => some (.put x (imm <<< 16)) -- lui
  | _ => none

/-- Whether a branch that compares `s` with zero is taken. -/
def condition? (code s : Word) : Option Bool :=
  match code with
  | 0x01 => some (0 ≤ s.toInt) -- bgez
  | _ => none

/-- What an instruction does on a machine with the registers `r`. Only the instructions that
expansions are made of have a meaning here. -/
def effect? (r : Registers) (i : Instruction) : Option Effect :=
  let s := r.get i.rs.index
  let t := r.get i.rt.index
  match i.format with
  | .register funct => (combine? funct s t).map (.put i.rd.index)
  | .immediate op => immediateEffect? op s t i.imm i.rt.index
  | .branch code => (condition? code s).map .branch
  | .jump _ => none

/-! ### Fields -/

theorem index_ofWord (x : Register) : (Register.ofWord (x.toWord.low 5)).index = x.index := by
  apply BitVec.eq_of_toNat_eq
  rw [Register.index, Register.ofWord, Register.index, BitVec.toNat_setWidth, BitVec.toNat_setWidth,
    Word.toNat_low, Register.toWord, BitVec.toNat_setWidth, BitVec.toNat_setWidth]
  have := x.number.isLt
  omega

theorem index_rs_encode {f : Format} (h : f.has .rs = true) (o : Operands) :
    (encode f o).rs.index = o.rs.index := by
  rw [← index_ofWord o.rs, rs]
  cases f with
  | jump _ => simp [Format.has] at h
  | _ =>
    simp (disch := decide) only [encode, Word.bits_setBits_of_disjoint, Word.bits_setBits_self]

theorem index_rt_encode {f : Format} (h : f.has .rt = true) (o : Operands) :
    (encode f o).rt.index = o.rt.index := by
  rw [← index_ofWord o.rt, rt]
  cases f with
  | jump _ | branch _ => simp [Format.has] at h
  | _ =>
    simp (disch := decide) only [encode, Word.bits_setBits_of_disjoint, Word.bits_setBits_self]

theorem index_rd_encode (funct : Word) (o : Operands) :
    (encode (.register funct) o).rd.index = o.rd.index := by
  rw [← index_ofWord o.rd, rd]
  simp (disch := decide) only [encode, Word.bits_setBits_of_disjoint, Word.bits_setBits_self]

/-- The offset of a branch is what its field keeps of the number, with its sign. -/
theorem signedImm_encode {f : Format} (h : f.has .offset = true) (o : Operands) :
    (encode f o).signedImm = (o.imm.setWidth 16).toInt := by
  have hsuits : OperandKind.immediate.suits f = true := by
    cases f with
    | immediate _ | branch _ => rfl
    | register _ | jump _ => simp [Format.has] at h
  rw [signedImm, imm_encode hsuits]
  congr 1
  apply BitVec.eq_of_toNat_eq
  rw [BitVec.toNat_setWidth, Word.toNat_low, BitVec.toNat_setWidth, Nat.mod_mod]

/-! ### Effects by layout -/

variable (r : Registers) (o : Operands)

theorem effect?_register {funct : Word} (h : (Format.register funct).isCoded = true) :
    (encode (.register funct) o).effect? r =
      (combine? funct (r.get o.rs.index) (r.get o.rt.index)).map (.put o.rd.index) := by
  rw [effect?, format_encode h, index_rs_encode rfl, index_rt_encode rfl, index_rd_encode]

theorem effect?_immediate {op : Word} (h : (Format.immediate op).isCoded = true) :
    (encode (.immediate op) o).effect? r =
      immediateEffect? op (r.get o.rs.index) (r.get o.rt.index) (o.imm.low 16) o.rt.index := by
  rw [effect?, format_encode h, index_rs_encode rfl, index_rt_encode rfl, imm_encode rfl]

theorem effect?_branch {code : Word} (h : (Format.branch code).isCoded = true) :
    (encode (.branch code) o).effect? r = (condition? code (r.get o.rs.index)).map .branch := by
  rw [effect?, format_encode h, index_rs_encode rfl]

end Instruction

/-! ### Runs -/

/-- A machine that is about to carry out the word at `pc`. -/
structure Processor where
  pc : Word
  registers : Registers

namespace Processor

/-- The word at `pc` among those that stand from `origin` on. -/
def fetch? : List Instruction → Word → Word → Option Instruction
  | [], _, _ => none
  | i :: rest, origin, pc => if pc = origin then some i else fetch? rest (origin + 4) pc

/-- Where an effect of the word `i` leads. -/
def apply (s : Processor) (i : Instruction) : Effect → Processor
  | .put x v => ⟨s.pc + 4, s.registers.set x v⟩
  | .branch taken => ⟨if taken then i.branchTo s.pc else s.pc + 4, s.registers⟩

/-- Carry out one of the words that stand from `origin` on. -/
def step? (words : List Instruction) (origin : Word) (s : Processor) : Option Processor :=
  (fetch? words origin s.pc).bind fun i => (i.effect? s.registers).map (s.apply i)

/-- Carry out so many of the words that stand from `origin` on. -/
def run? (words : List Instruction) (origin : Word) : Nat → Processor → Option Processor
  | 0, s => some s
  | n + 1, s => (s.step? words origin).bind (run? words origin n)

/-- A run of the words that stand from `origin` on goes from `s` to `t`, where it leaves them. -/
def Ends (words : List Instruction) (origin : Word) (s t : Processor) : Prop :=
  ∃ n, run? words origin n s = some t ∧ fetch? words origin t.pc = none

variable {words : List Instruction} {origin : Word}

/-- A run leaves the words in one state only. -/
theorem Ends.unique {s t t' : Processor} (h : Ends words origin s t)
    (h' : Ends words origin s t') : t = t' := by
  have hstuck : ∀ {s : Processor}, fetch? words origin s.pc = none → s.step? words origin = none :=
    fun h => by rw [step?, h, Option.bind_none]
  obtain ⟨n, hrun, hend⟩ := h
  obtain ⟨n', hrun', hend'⟩ := h'
  induction n generalizing s n' with
  | zero =>
    obtain rfl := Option.some.inj hrun
    cases n' with
    | zero => exact Option.some.inj hrun'
    | succ n' => simp [run?, hstuck hend] at hrun'
  | succ n ih =>
    cases n' with
    | zero =>
      obtain rfl := Option.some.inj hrun'
      simp [run?, hstuck hend'] at hrun
    | succ n' =>
      obtain ⟨u, hu, hrun⟩ := Option.bind_eq_some_iff.1 hrun
      obtain ⟨u', hu', hrun'⟩ := Option.bind_eq_some_iff.1 hrun'
      obtain rfl := Option.some.inj (hu.symm.trans hu')
      exact ih hrun n' hrun'

/-! ### Words in their order -/

/-- The address of the word with `n` others before it. -/
def wordAt (origin : Word) (n : Nat) : Word := origin + BitVec.ofNat 32 (4 * n)

@[simp]
theorem wordAt_zero (origin : Word) : wordAt origin 0 = origin := BitVec.add_zero origin

theorem wordAt_succ (origin : Word) (n : Nat) : wordAt origin (n + 1) = wordAt origin n + 4 := by
  rw [wordAt, wordAt, Nat.mul_add, BitVec.ofNat_add, BitVec.add_assoc]
  rfl

theorem wordAt_next (origin : Word) (n : Nat) : wordAt (origin + 4) n = wordAt origin (n + 1) := by
  rw [wordAt_succ, wordAt, wordAt, BitVec.add_assoc, BitVec.add_comm 4, BitVec.add_assoc]

theorem wordAt_ne {n : Nat} (hpos : 0 < n) (h : 4 * n < 2 ^ 32) : wordAt origin n ≠ origin := by
  intro heq
  have hnat := congrArg BitVec.toNat heq
  rw [wordAt, BitVec.toNat_add, BitVec.toNat_ofNat, Nat.mod_eq_of_lt h] at hnat
  have := origin.isLt
  omega

theorem fetch?_append {before : List Instruction} (i : Instruction) (after : List Instruction)
    (h : 4 * before.length < 2 ^ 32) :
    fetch? (before ++ i :: after) origin (wordAt origin before.length) = some i := by
  induction before generalizing origin with
  | nil => exact if_pos (wordAt_zero origin)
  | cons j before ih =>
    rw [List.length_cons] at h ⊢
    rw [List.cons_append, fetch?, if_neg (wordAt_ne (Nat.succ_pos _) h), ← wordAt_next]
    exact ih (by omega)

/-- Behind the words there is none of them. -/
theorem fetch?_of_length_le {n : Nat} (h : words.length ≤ n) (hn : 4 * n < 2 ^ 32) :
    fetch? words origin (wordAt origin n) = none := by
  induction words generalizing origin n with
  | nil => rfl
  | cons i words ih =>
    cases n with
    | zero => simp at h
    | succ n =>
      rw [fetch?, if_neg (wordAt_ne (Nat.succ_pos n) hn), ← wordAt_next]
      exact ih (Nat.le_of_succ_le_succ h) (by omega)

/-- A machine at a word carries it out. -/
theorem step?_append {before after : List Instruction} {i : Instruction} {r : Registers}
    {e : Effect} (h : 4 * before.length < 2 ^ 32) (he : i.effect? r = some e) :
    step? (before ++ i :: after) origin ⟨wordAt origin before.length, r⟩ =
      some (apply ⟨wordAt origin before.length, r⟩ i e) := by
  rw [step?, fetch?_append i after h, Option.bind_some, he, Option.map_some]

/-- A machine at a branch goes where it leads. -/
theorem run?_branch (origin : Word) {before after : List Instruction} {i : Instruction}
    {r : Registers} {taken : Bool} (h : 4 * before.length < 2 ^ 32)
    (hi : i.effect? r = some (.branch taken)) (n : Nat) :
    run? (before ++ i :: after) origin (n + 1) ⟨wordAt origin before.length, r⟩ =
      run? (before ++ i :: after) origin n
        ⟨if taken then i.branchTo (wordAt origin before.length)
          else wordAt origin (before.length + 1), r⟩ := by
  rw [run?, step?_append h hi, wordAt_succ]
  rfl

/-- The registers behind words that do nothing but put values into registers. -/
def puts? (r : Registers) : List Instruction → Option Registers
  | [] => some r
  | i :: rest =>
    match i.effect? r with
    | some (.put x v) => puts? (r.set x v) rest
    | _ => none

theorem puts?_cons {r : Registers} {i : Instruction} {x : BitVec 5} {v : Word}
    (h : i.effect? r = some (.put x v)) (rest : List Instruction) :
    puts? r (i :: rest) = puts? (r.set x v) rest := by
  rw [puts?, h]

/-- Words that put values into registers are carried out one behind the other, whatever stands
before and behind them. -/
theorem run?_puts (origin : Word) (before : List Instruction) {words : List Instruction}
    (after : List Instruction) {r r' : Registers} (h : puts? r words = some r')
    (hroom : 4 * (before.length + words.length) ≤ 2 ^ 32) (n : Nat) :
    run? (before ++ (words ++ after)) origin (words.length + n)
        ⟨wordAt origin before.length, r⟩ =
      run? (before ++ (words ++ after)) origin n
        ⟨wordAt origin (before.length + words.length), r'⟩ := by
  induction words generalizing before r with
  | nil =>
    obtain rfl := Option.some.inj h
    rw [List.length_nil, Nat.zero_add, Nat.add_zero]
  | cons i words ih =>
    unfold puts? at h
    split at h
    · next x v he =>
      rw [List.length_cons] at hroom ⊢
      have hlength : (before ++ [i]).length = before.length + 1 := List.length_append
      have hrest := ih (before ++ [i]) h (by omega)
      rw [hlength, List.append_assoc, List.singleton_append, Nat.add_assoc, Nat.add_comm 1,
        wordAt_succ] at hrest
      rw [Nat.add_right_comm, run?, List.cons_append, step?_append (by omega) he]
      exact hrest
    · simp at h

end Processor

end Mips
