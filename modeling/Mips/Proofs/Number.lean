import Mathlib.Algebra.Ring.Nat
import Mips.Proofs.Outcome
import Mips.Proofs.Target

/-!
# Numbers in their fields

The number of an operand is cut to the width of its field, and there is a warning exactly if that
loses bits. A field of 16 bits also keeps the numbers that it has with a sign, the others do not:

    kind                 width   kept without a warning
    shift                5       0 ... 31
    immediate, offset    16      0 ... 0xffff, 0xffff8000 ... 0xffffffff
    target               26      0 ... 0x3ffffff

The offset of an operand in memory is never cut: it is kept like an immediate or refused. A full
value stands in two words and is never cut either (`numbers_assemble`).
-/

namespace Mips

/-! ### Widths -/

namespace OperandKind

/-- How many bits the field of the operand has. -/
def width : OperandKind → Nat
  | .shift => 5
  | .target => 26
  | _ => 16

/-- The field does not have all of the number: it is too wide, and for a field of 16 bits it is no
number with a sign either. -/
def Loses (n : Word) (kind : OperandKind) : Prop :=
  2 ^ kind.width ≤ n.toNat ∧ (kind.width = 16 → (n.setWidth 16).signExtend 32 ≠ n)

instance (n : Word) (kind : OperandKind) : Decidable (kind.Loses n) :=
  inferInstanceAs (Decidable (_ ∧ _))

theorem holds_iff {kind : OperandKind} {field : Field} (hfield : kind.field? = some field)
    (n : Word) : field.holds n = true ↔ ¬ kind.Loses n := by
  have hunsigned : ∀ width, n.fitsUnsigned width = true ↔ ¬ 2 ^ width ≤ n.toNat := by
    intro width
    rw [Word.fitsUnsigned_iff, Nat.not_le]
  have hsigned : n.fits 16 = true ↔
      ¬ (2 ^ 16 ≤ n.toNat ∧ (n.setWidth 16).signExtend 32 ≠ n) := by
    rw [Word.fits_iff, Ne, Word.signExtend_setWidth_eq_iff]
    omega
  cases kind with
  | shift =>
    obtain rfl := Option.some.inj hfield
    simpa [Loses, width, Field.holds, Field.shift] using hunsigned 5
  | target =>
    obtain rfl := Option.some.inj hfield
    simpa [Loses, width, Field.holds, Field.target] using hunsigned 26
  | immediate | offset =>
    obtain rfl := Option.some.inj hfield
    simpa [Loses, width, Field.holds, Field.immediate, Field.offset] using hsigned
  | full | rd | rs | rt | memory => simp [field?] at hfield

/-- There is one warning about a number if its field loses bits of it. -/
theorem complaint_eq {kind : OperandKind} {field : Field} (hfield : kind.field? = some field)
    (n : Word) : kind.complaint n = if kind.Loses n then [.cut field n] else [] := by
  unfold complaint
  rw [hfield]
  by_cases hloses : kind.Loses n
  · have hholds : field.holds n = false := by
      rw [← Bool.not_eq_true, holds_iff hfield]
      exact not_not_intro hloses
    simp [hloses, hholds]
  · simp [hloses, (holds_iff hfield n).2 hloses]

theorem exists_field {kind : OperandKind} (h : kind.isExpression = true) (hfull : kind ≠ .full) :
    ∃ field, kind.field? = some field := by
  cases kind with
  | shift | immediate | offset | target => exact ⟨_, rfl⟩
  | full => exact absurd rfl hfull
  | rd | rs | rt | memory => simp [isExpression] at h

theorem parts_eq {kind : OperandKind} {field : Field} (hfield : kind.field? = some field)
    (n : Word) : kind.parts n = [n.low kind.width] := by
  cases kind with
  | shift | immediate | offset | target => rfl
  | full | rd | rs | rt | memory => simp [field?] at hfield

end OperandKind

/-! ### Operands in memory -/

namespace Encoding

/-- The tokens are an expression in front of a register in parentheses. The expression has the value
`v`, or it is missing and `v` is zero; and `v` has 16 bits, with or without a sign. -/
def Locates (names : SymbolTable) (address : Word) (arg : List Token) (v : Word)
    (base : Register) : Prop :=
  ∃ offset name t₁ t₂ t₃,
    arg = offset ++ [⟨.leftParen, t₁⟩, ⟨.register name, t₂⟩, ⟨.rightParen, t₃⟩] ∧
    Register.ofName? name = some base ∧
    (offset = [] ∧ v = 0 ∨
      offset ≠ [] ∧ Expr.evalTokens names address offset = .ok (some v)) ∧
    (v.toNat < 2 ^ 16 ∨ -32768 ≤ v.toInt ∧ v.toInt < 32768)

variable {p : Place} {arg : List Token}

theorem memoryParts_eq_some_iff {offset : List Token} {base : Register} :
    memoryParts arg = some (offset, base) ↔ ∃ name t₁ t₂ t₃,
      arg = offset ++ [⟨.leftParen, t₁⟩, ⟨.register name, t₂⟩, ⟨.rightParen, t₃⟩] ∧
      Register.ofName? name = some base := by
  constructor
  · intro h
    unfold memoryParts at h
    split at h
    · next t₃ name t₂ t₁ rest hreverse =>
      obtain ⟨r, hr, heq⟩ := Option.map_eq_some_iff.1 h
      obtain ⟨rfl, rfl⟩ := Prod.mk.inj heq
      refine ⟨name, t₁, t₂, t₃, ?_, hr⟩
      rw [List.reverse_eq_iff.1 hreverse]
      simp
    · simp at h
  · rintro ⟨name, t₁, t₂, t₃, rfl, hname⟩
    simp [memoryParts, hname]

/-- An operand in memory is accepted if it is one, and what is kept of its offset has 16 bits. -/
theorem memory_of_locates {v : Word} {base : Register}
    (h : Locates p.symbols p.address arg v base) : memory p arg = .ok (v.low 16, base) := by
  obtain ⟨offset, name, t₁, t₂, t₃, harg, hname, hvalue, hfits⟩ := h
  have hparts := memoryParts_eq_some_iff.2 ⟨name, t₁, t₂, t₃, harg, hname⟩
  unfold memory
  rw [hparts]
  rcases hvalue with ⟨rfl, rfl⟩ | ⟨hoffset, heval⟩
  · rfl
  · have hv : v.fits 16 = true := (Word.fits_iff v 16).2 hfits
    cases offset with
    | nil => exact absurd rfl hoffset
    | cons token rest => simp [heval, hv]

/-- An operand that is none in memory is refused. -/
theorem memory_of_not_locates (h : ∀ v base, ¬ Locates p.symbols p.address arg v base) :
    memory p arg = .error (.notMemory (Token.spanText arg)) := by
  unfold memory
  dsimp only
  split
  · rfl
  · next base hparts =>
    obtain ⟨name, t₁, t₂, t₃, harg, hname⟩ := memoryParts_eq_some_iff.1 hparts
    exact absurd ⟨[], name, t₁, t₂, t₃, harg, hname, Or.inl ⟨rfl, rfl⟩, Or.inl (by decide)⟩
      (h 0 base)
  · next offset base hoffset hparts =>
    obtain ⟨name, t₁, t₂, t₃, harg, hname⟩ := memoryParts_eq_some_iff.1 hparts
    split
    · next v heval =>
      have hv : ¬ v.fits 16 = true := fun hv =>
        h v base ⟨offset, name, t₁, t₂, t₃, harg, hname, Or.inr ⟨hoffset, heval⟩,
          (Word.fits_iff v 16).1 hv⟩
      rw [if_neg hv]
    · rfl

end Encoding

/-- A load or store takes a register and an operand in memory, and has one word for them. -/
theorem Mnemonic.operands_of_memory : ∀ m ∈ table, .memory ∈ m.operands →
    m.operands = [.rt, .memory] ∧ Takes .immediate m.meaning := by decide

/-! ### Statements -/

namespace Encoding

variable {isa : Isa} {names : SymbolTable} {address : Word} {m : Mnemonic} {tokens : List Token}

/-- A statement is encoded if its expression has a value and its other operands are registers. -/
theorem exists_ofStatement {kind : OperandKind} {arg : List Token} {expr : Expr} {v : Option Word}
    (hselect : Mnemonic.select isa m.name (Line.splitArgs tokens).length = .ok m)
    (hx : m.expression? (Line.splitArgs tokens) = some (kind, arg))
    (hregisters : ∀ x ∈ m.operands.zip (Line.splitArgs tokens), x.1.isExpression = false →
      (register x.2).isOk = true)
    (hparse : Expr.parse arg = .ok expr) (heval : expr.eval names address = .ok v) :
    ∃ e, ofStatement isa names address m.name tokens = .ok e := by
  let p : Place := ⟨names, address, address + BitVec.ofNat 32 (4 * m.fieldIndex)⟩
  have hv : value p arg = .ok (expr, v) := value_eq hparse heval
  obtain ⟨b, hb⟩ := exists_bindAll_expression (Mnemonic.mem_table_of_select hselect)
    (Mnemonic.select_eq_ok hselect).2.2 hx hv hregisters
  rw [ofStatement_eq hselect, hb]
  exact ⟨_, rfl⟩

/-- A load or store is encoded with the lower half of its offset, or refused for its operand in
memory. -/
theorem ofStatement_memory {first arg : List Token}
    (hselect : Mnemonic.select isa m.name (Line.splitArgs tokens).length = .ok m)
    (hmemory : .memory ∈ m.operands) (hargs : Line.splitArgs tokens = [first, arg])
    (hregister : (register first).isOk = true) :
    (∀ v base, Locates names address arg v base → ∃ e i,
      ofStatement isa names address m.name tokens = .ok e ∧ e.words = [i] ∧ e.warnings = [] ∧
        i.imm = v.low 16) ∧
    ((∀ v base, ¬ Locates names address arg v base) →
      ofStatement isa names address m.name tokens = .error [.notMemory (Token.spanText arg)]) := by
  obtain ⟨r, hr⟩ := register_eq_ok hregister
  obtain ⟨hoperands, htakes⟩ :=
    Mnemonic.operands_of_memory m (Mnemonic.mem_table_of_select hselect) hmemory
  let p : Place := ⟨names, address, address + BitVec.ofNat 32 (4 * m.fieldIndex)⟩
  rw [ofStatement_eq hselect, hoperands, hargs]
  simp only [List.zip_cons_cons, List.zip_nil_left, bindAll, bindOperand, hr, Except.map]
  refine ⟨fun v base hlocates => ?_, fun hnone => ?_⟩
  · have hok : memory p arg = .ok (v.low 16, base) := memory_of_locates hlocates
    rw [hok]
    cases hmeaning : m.meaning with
    | real f =>
      rw [hmeaning] at htakes
      refine ⟨_, Instruction.encode f { rs := base, rt := r, imm := v.low 16 }, rfl,
        by simp only [Mnemonic.words, hmeaning], rfl, ?_⟩
      rw [Instruction.imm_encode htakes.2, Word.low_low]
    | pseudo q =>
      rw [hmeaning] at htakes
      simp [Mnemonic.Takes] at htakes
  · have herror : memory p arg = .error (.notMemory (Token.spanText arg)) :=
      memory_of_not_locates hnone
    rw [herror]
    rfl

end Encoding

/-! ### The rows of a listing -/

/-- The row is an instruction with the expression `expr` for the operand `kind`, of the value `v`;
its other operands are registers. The word with the field of the expression is at `origin`. -/
def Row.Operates (names : SymbolTable) (row : Row) (kind : OperandKind) (origin : Word)
    (expr : Expr) (v : Word) : Prop :=
  ∃ m args arg, row.plan = .instruction m args ∧
    m.expression? (Line.splitArgs args) = some (kind, arg) ∧
    (∀ x ∈ m.operands.zip (Line.splitArgs args), x.1.isExpression = false →
      (Encoding.register x.2).isOk = true) ∧
    origin = row.address + BitVec.ofNat 32 (4 * m.fieldIndex) ∧
    Expr.parse arg = .ok expr ∧ expr.eval names row.address = .ok (some v)

/-- The row is a load or store of a register, with `arg` for its operand in memory. -/
def Row.Accesses (row : Row) (arg : List Token) : Prop :=
  ∃ m args first, row.plan = .instruction m args ∧ .memory ∈ m.operands ∧
    Line.splitArgs args = [first, arg] ∧ (Encoding.register first).isOk = true

namespace Listing

variable {settings : Settings} {lines : List Line} {row : Row}

/-- The number of an expression with a value is in the module, and it is what the second pass may
complain about. -/
theorem parts_of_operates {kind : OperandKind} {expr : Expr} {origin v n : Word}
    (hrow : row ∈ (ofLines settings lines).rows)
    (h : row.Operates (ofLines settings lines).names kind origin expr v)
    (hn : n = kind.amount ⟨(ofLines settings lines).names, row.address, origin⟩ expr v) :
    (∀ k part, (kind.parts n)[k]? = some part →
      ∃ i, ((ofLines settings lines).module settings).HasAt row.place
        (origin + BitVec.ofNat 32 (4 * k)) i ∧ kind.read i = part) ∧
    (row.realized settings.isa (ofLines settings lines).names).problems = kind.complaint n := by
  obtain ⟨m, args, arg, hplan, hx, hregisters, horigin, hparse, heval⟩ := h
  have hselect := selected_of_mem hrow m args hplan
  obtain ⟨e, he⟩ := Encoding.exists_ofStatement hselect hx hregisters hparse heval
  exact parts_of_encoding hrow hplan hx he horigin hparse heval hn

/-- A number is cut to the width of its field. -/
theorem field_of_operates {kind : OperandKind} {field : Field} {expr : Expr} {origin v n : Word}
    (hrow : row ∈ (ofLines settings lines).rows) (hfield : kind.field? = some field)
    (h : row.Operates (ofLines settings lines).names kind origin expr v)
    (hn : n = kind.amount ⟨(ofLines settings lines).names, row.address, origin⟩ expr v) :
    ∃ i, ((ofLines settings lines).module settings).HasAt row.place origin i ∧
      kind.read i = n.low kind.width := by
  obtain ⟨i, hat, hread⟩ := (parts_of_operates hrow h hn).1 0 (n.low kind.width)
    (by rw [OperandKind.parts_eq hfield]; rfl)
  rw [Nat.mul_zero, BitVec.add_zero] at hat
  exact ⟨i, hat, hread⟩

/-- The module has a load or store with its offset, or nothing is wrong but its operand in
memory. -/
theorem field_of_accesses {arg : List Token} (hrow : row ∈ (ofLines settings lines).rows)
    (h : row.Accesses arg) :
    (∀ v base, Encoding.Locates (ofLines settings lines).names row.address arg v base →
      (row.realized settings.isa (ofLines settings lines).names).problems = [] ∧
      ∃ i, ((ofLines settings lines).module settings).HasAt row.place row.address i ∧
        i.imm = v.low 16) ∧
    ((∀ v base, ¬ Encoding.Locates (ofLines settings lines).names row.address arg v base) →
      (row.realized settings.isa (ofLines settings lines).names).problems =
        [.notMemory (Token.spanText arg)]) := by
  obtain ⟨m, args, first, hplan, hmemory, hargs, hregister⟩ := h
  obtain ⟨haccepted, hrefused⟩ :=
    Encoding.ofStatement_memory (selected_of_mem hrow m args hplan) hmemory hargs hregister
  refine ⟨fun v base hlocates => ?_, fun hnone => ?_⟩
  · obtain ⟨e, i, he, hwords, hwarnings, himm⟩ := haccepted v base hlocates
    refine ⟨by simp only [Row.realized, hplan, he, hwarnings], i, ?_, himm⟩
    have hat := hasAt_of_encoding hrow hplan he (n := 0) (i := i) (by rw [hwords]; rfl)
    rwa [Nat.mul_zero, BitVec.add_zero] at hat
  · simp only [Row.realized, hplan, hrefused hnone]

end Listing

/-! ### The numbers of a source -/

namespace Assembly

/-- How often it is reported under a line number that a number was cut. -/
def cuts (a : Assembly) (n : Nat) : Nat := (a.problemsAt n).countP (·.kind = .numberCut)

theorem cuts_eq (a : Assembly) (n : Nat) :
    a.cuts n = (a.verdict n).countP (·.kind = .numberCut) := by
  rw [cuts, verdict, List.countP_filter]
  refine List.countP_congr fun problem _ => ?_
  -- a problem with a number is not about a name
  by_cases hkind : problem.kind = .numberCut
  · simp [hkind, Problem.concernsName]
  · simp [hkind]

/-- A number is reported once if its field loses bits of it. -/
theorem cuts_of_operates {source : String} {settings : Settings} {a : Assembly}
    (ha : assemble source settings = .ok a) {l : Listing}
    (hl : l = Listing.ofLines settings (Source.read source).lines) {row : Row}
    (hrow : row ∈ l.rows) {kind : OperandKind} {field : Field} (hfield : kind.field? = some field)
    {origin v n : Word} {expr : Expr} (h : row.Operates l.names kind origin expr v)
    (hn : n = kind.amount ⟨l.names, row.address, origin⟩ expr v) :
    a.cuts row.line.number = if kind.Loses n then 1 else 0 := by
  subst hl
  obtain ⟨m, args, arg, hplan, -⟩ := id h
  rw [cuts_eq, verdict_of_plan ha hrow hplan, (Listing.parts_of_operates hrow h hn).2,
    OperandKind.complaint_eq hfield]
  split <;> rfl

end Assembly

/-- Every number with a value is in its field, cut to the width of the field, and reported once if
that loses bits of it. A full value is in two words and is not reported. An operand in memory that
is one of 16 bits is in its field and not reported, and any other is refused. -/
theorem numbers_assemble (source : String) (settings : Settings) :
    let l := Listing.ofLines settings (Source.read source).lines
    ∃ a, assemble source settings = .ok a ∧ ∀ row ∈ l.rows,
      (∀ kind origin expr v, row.Operates a.module.symbols kind origin expr v → kind ≠ .full →
        let n := kind.amount ⟨a.module.symbols, row.address, origin⟩ expr v
        a.cuts row.line.number = (if kind.Loses n then 1 else 0) ∧
        ∃ i, a.module.HasAt row.place origin i ∧
          (kind.read i).toNat = n.toNat % 2 ^ kind.width) ∧
      (∀ origin expr v, row.Operates a.module.symbols .full origin expr v →
        a.verdict row.line.number = [] ∧
        ∃ i j, a.module.HasAt row.place origin i ∧ a.module.HasAt row.place (origin + 4) j ∧
          i.imm.toNat * 2 ^ 16 + j.imm.toNat = v.toNat) ∧
      ∀ arg, row.Accesses arg →
        (∀ v base, Encoding.Locates a.module.symbols row.address arg v base →
          a.verdict row.line.number = [] ∧
          ∃ i, a.module.HasAt row.place row.address i ∧ i.imm.toNat = v.toNat % 2 ^ 16) ∧
        ((∀ v base, ¬ Encoding.Locates a.module.symbols row.address arg v base) →
          a.verdict row.line.number = [.notMemory (Token.spanText arg)]) := by
  intro l
  obtain ⟨a, ha⟩ := exists_assembly source settings
  refine ⟨a, ha, fun row hrow => ?_⟩
  rw [module_assemble ha]
  refine ⟨?_, ?_, ?_⟩
  · intro kind origin expr v hoperates hfull n
    obtain ⟨m, args, arg, -, hx, -⟩ := id hoperates
    obtain ⟨field, hfield⟩ :=
      OperandKind.exists_field (Mnemonic.isExpression_of_expression? hx) hfull
    obtain ⟨i, hat, hread⟩ := Listing.field_of_operates hrow hfield hoperates (n := n) rfl
    exact ⟨Assembly.cuts_of_operates ha rfl hrow hfield hoperates rfl, i, hat,
      by rw [hread, Word.toNat_low]⟩
  · intro origin expr v hoperates
    obtain ⟨m, args, arg, hplan, -⟩ := id hoperates
    obtain ⟨hparts, hproblems⟩ := Listing.parts_of_operates hrow hoperates rfl
    obtain ⟨i, hati, hi⟩ := hparts 0 _ rfl
    obtain ⟨j, hatj, hj⟩ := hparts 1 _ rfl
    rw [Nat.mul_zero, BitVec.add_zero] at hati
    refine ⟨(Assembly.verdict_of_plan ha hrow hplan).trans hproblems, i, j, hati, hatj, ?_⟩
    rw [show i.imm = _ from hi, show j.imm = _ from hj]
    exact v.toNat_halves
  · intro arg haccesses
    obtain ⟨m, args, first, hplan, -⟩ := id haccesses
    obtain ⟨haccepted, hrefused⟩ := Listing.field_of_accesses hrow haccesses
    rw [Assembly.verdict_of_plan ha hrow hplan]
    refine ⟨fun v base hlocates => ?_, hrefused⟩
    obtain ⟨hnone, i, hat, himm⟩ := haccepted v base hlocates
    exact ⟨hnone, i, hat, by rw [himm, Word.toNat_low]⟩

/-- A number of 17 bits is cut for one word and kept in two; an offset of 16 bits is kept, and one
without a register is refused. -/
theorem wide_numbers :
    ∃ a, assemble "lui $t0, 0x18000\nli $t0, 0x18000\nlw $t0, 0x8000($t1)\nlw $t0, 8" {} = .ok a ∧
      (a.cuts 1 = 1 ∧ ∃ i, a.module.HasAt .text 0x400000 i ∧ i.imm.toNat = 0x8000) ∧
      (a.verdict 2 = [] ∧ ∃ i j, a.module.HasAt .text 0x400004 i ∧
        a.module.HasAt .text 0x400008 j ∧ i.imm.toNat * 2 ^ 16 + j.imm.toNat = 0x18000) ∧
      (a.verdict 3 = [] ∧ ∃ i, a.module.HasAt .text 0x40000c i ∧ i.imm.toNat = 0x8000) ∧
      a.verdict 4 = [.notMemory "8"] := by
  obtain ⟨a, ha, hnumbers⟩ := numbers_assemble
    "lui $t0, 0x18000\nli $t0, 0x18000\nlw $t0, 0x8000($t1)\nlw $t0, 8" {}
  have hlui := (hnumbers ⟨⟨1, none, some (.instruction "lui" [⟨.register "t0", "$t0"⟩,
      ⟨.comma, ","⟩, ⟨.number 0x18000, "0x18000"⟩])⟩, .text, 0x400000,
    .instruction (.real "lui" .lui [.rt, .immediate]) [⟨.register "t0", "$t0"⟩,
      ⟨.comma, ","⟩, ⟨.number 0x18000, "0x18000"⟩]⟩ (by decide +kernel)).1 .immediate 0x400000
    (.number 0x18000) 0x18000 ⟨_, _, [⟨.number 0x18000, "0x18000"⟩], rfl, by decide +kernel,
      by decide +kernel, by decide, by decide +kernel, rfl⟩ (by decide)
  have hli := (hnumbers ⟨⟨2, none, some (.instruction "li" [⟨.register "t0", "$t0"⟩,
      ⟨.comma, ","⟩, ⟨.number 0x18000, "0x18000"⟩])⟩, .text, 0x400004,
    .instruction (.pseudo "li" .li [.rt, .full]) [⟨.register "t0", "$t0"⟩,
      ⟨.comma, ","⟩, ⟨.number 0x18000, "0x18000"⟩]⟩ (by decide +kernel)).2.1 0x400004
    (.number 0x18000) 0x18000 ⟨_, _, [⟨.number 0x18000, "0x18000"⟩], rfl, by decide +kernel,
      by decide +kernel, by decide, by decide +kernel, rfl⟩
  have hlw := ((hnumbers ⟨⟨3, none, some (.instruction "lw" [⟨.register "t0", "$t0"⟩,
      ⟨.comma, ","⟩, ⟨.number 0x8000, "0x8000"⟩, ⟨.leftParen, "("⟩, ⟨.register "t1", "$t1"⟩,
      ⟨.rightParen, ")"⟩])⟩, .text, 0x40000c,
    .instruction (.real "lw" (.immediate 0x23) [.rt, .memory]) [⟨.register "t0", "$t0"⟩,
      ⟨.comma, ","⟩, ⟨.number 0x8000, "0x8000"⟩, ⟨.leftParen, "("⟩, ⟨.register "t1", "$t1"⟩,
      ⟨.rightParen, ")"⟩]⟩ (by decide +kernel)).2.2
    [⟨.number 0x8000, "0x8000"⟩, ⟨.leftParen, "("⟩, ⟨.register "t1", "$t1"⟩, ⟨.rightParen, ")"⟩]
    ⟨_, _, [⟨.register "t0", "$t0"⟩], rfl, by decide, by decide +kernel, by decide +kernel⟩).1
    0x8000 _ ⟨[⟨.number 0x8000, "0x8000"⟩], "t1", "(", "$t1", ")", rfl, rfl,
      Or.inr ⟨by simp, Expr.evalTokens_number ..⟩, Or.inl (by decide)⟩
  have hrefused := ((hnumbers ⟨⟨4, none, some (.instruction "lw" [⟨.register "t0", "$t0"⟩,
      ⟨.comma, ","⟩, ⟨.number 8, "8"⟩])⟩, .text, 0x400010,
    .instruction (.real "lw" (.immediate 0x23) [.rt, .memory]) [⟨.register "t0", "$t0"⟩,
      ⟨.comma, ","⟩, ⟨.number 8, "8"⟩]⟩ (by decide +kernel)).2.2 [⟨.number 8, "8"⟩]
    ⟨_, _, [⟨.register "t0", "$t0"⟩], rfl, by decide, by decide +kernel, by decide +kernel⟩).2 (by
      rintro v base ⟨offset, name, t₁, t₂, t₃, harg, -⟩
      simpa using congrArg List.length harg)
  obtain ⟨hcuts, i, hat, himm⟩ := hlui
  have hloses : OperandKind.immediate.Loses 0x18000 := by decide
  have hrest : (0x18000 : Word).toNat % 2 ^ 16 = 0x8000 := by decide
  exact ⟨a, ha, ⟨hcuts.trans (if_pos hloses), i, hat, himm.trans hrest⟩, hli, hlw, hrefused⟩

end Mips
