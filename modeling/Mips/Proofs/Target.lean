import Mips.Proofs.Relocation

/-!
# Where branches and jumps go

A branch adds the signed number of words in its field to the address behind it; a jump replaces all
but the upper four bits of that address. Assembling checks a field by its width only: an offset may
have 16 bits with or without a sign, and a jump target 26 bits. So a transfer without a warning goes
where it should exactly under one more condition (`transfers_assemble`):

    branch   goal - (origin + 4)   -0x20000 ... 0x1fffc    0x20000 ... 0x3fffc
                                   reaches the goal        goes backwards
    jump     upper bits of origin + 4   zero                    not zero
                                        reaches the goal        stays in its region
-/

namespace Mips

namespace Instruction

/-- Where a branch at `a` goes. -/
def branchTo (a : Word) (i : Instruction) : Word :=
  a + (4 : Word) + BitVec.ofInt 32 (4 * i.signedImm)

/-- Where a jump at `a` goes: to its target in the region of the word behind it. -/
def jumpTo (a : Word) (i : Instruction) : Word :=
  ((a + 4 : Word) &&& (0xf0000000 : Word)) ||| i.target <<< 2

/-! ### Branches -/

/-- A branch goes to `t` if its offset in bytes is the distance. -/
theorem branchTo_eq_iff {a t : Word} {i : Instruction} :
    i.branchTo a = t ↔ 4 * i.signedImm = (t - (a + 4)).toInt := by
  have hlow : -32768 ≤ i.signedImm := BitVec.le_toInt (i.imm.setWidth 16)
  have hhigh : i.signedImm < 32768 := BitVec.toInt_lt
  have hbytes : (BitVec.ofInt 32 (4 * i.signedImm)).toInt = 4 * i.signedImm := by
    rw [BitVec.toInt_ofInt]
    exact Int.bmod_eq_of_le (by omega) (by omega)
  rw [branchTo, BitVec.add_comm, ← BitVec.eq_sub_iff_add_eq, ← BitVec.toInt_inj, hbytes]

theorem holds_offset {n : Word} (h : Field.offset.holds n = true) :
    -32768 ≤ n.toInt ∧ n.toInt < 65536 := by
  rcases (Word.fits_iff n 16).1 h with h | h
  · rw [BitVec.toInt_eq_toNat_cond]
    split <;> omega
  · omega

theorem toInt_eq_four_mul {d : Word} (h : d.toNat % 4 = 0) :
    d.toInt = 4 * (d.sshiftRight 2).toInt := by
  have hmod : d.toInt % 4 = 0 := by
    rw [BitVec.toInt_eq_toNat_cond]
    split <;> omega
  rw [BitVec.toInt_sshiftRight, Int.shiftRight_eq_div_pow]
  omega

/-- A branch whose offset has 16 bits reaches its goal unless the offset needs all of them. -/
theorem branchTo_eq_iff_lt {a t : Word} {i : Instruction} (halign : t.toNat % 4 = a.toNat % 4)
    (himm : i.imm = Word.low ((t - (a + 4)).sshiftRight 2) 16)
    (hholds : Field.offset.holds ((t - (a + 4)).sshiftRight 2) = true) :
    i.branchTo a = t ↔ (t - (a + 4)).toInt < 0x20000 := by
  have hdistance : (t - (a + 4)).toNat % 4 = 0 := by
    rw [BitVec.toNat_sub, BitVec.toNat_add]
    have hfour : (4 : Word).toNat = 4 := rfl
    omega
  rw [branchTo_eq_iff, signedImm_eq himm, toInt_eq_four_mul hdistance]
  generalize (t - (a + 4)).sshiftRight 2 = n at hholds
  obtain ⟨hlow, hhigh⟩ := holds_offset hholds
  have hn := n.isLt
  rw [BitVec.toInt_eq_toNat_cond] at hlow hhigh ⊢
  split at hlow <;> split <;> omega

/-! ### Jumps -/

/-- A jump whose target has 26 bits reaches it from the region at zero only. -/
theorem jumpTo_eq_iff {a t : Word} {i : Instruction} (halign : t.toNat % 4 = 0)
    (htarget : i.target = Word.low (t >>> 2) 26) (hholds : Field.target.holds (t >>> 2) = true) :
    i.jumpTo a = t ↔ (a + 4) &&& 0xf0000000 = 0 := by
  have hfits : (t >>> 2).toNat < 2 ^ 26 := by
    simpa [Field.holds, Field.target, Word.fitsUnsigned_iff] using hholds
  have hshift : (t >>> 2).toNat = t.toNat / 4 := by
    rw [BitVec.toNat_ushiftRight, Nat.shiftRight_eq_div_pow]
  have hfield : i.target <<< 2 = t := by
    apply BitVec.eq_of_toNat_eq
    rw [htarget, BitVec.toNat_shiftLeft, Word.toNat_low, Nat.mod_eq_of_lt hfits, hshift,
      Nat.shiftLeft_eq]
    have := t.isLt
    omega
  rw [jumpTo, hfield]
  refine ⟨fun h => ?_, fun h => by rw [h]; exact BitVec.zero_or⟩
  apply BitVec.eq_of_getLsbD_eq
  intro k hk
  -- below bit 28 the mask is zero, and from there on the target is
  by_cases hlow : k < 28
  · have hmask : ∀ k < 28, (0xf0000000 : Word).getLsbD k = false := by decide
    rw [BitVec.getLsbD_and, hmask k hlow, Bool.and_false]
    exact BitVec.getLsbD_zero.symm
  · have hzero : t.getLsbD k = false := Nat.testBit_lt_two_pow (Nat.lt_of_lt_of_le
      (show t.toNat < 2 ^ 28 by omega) (Nat.pow_le_pow_right (by decide) (Nat.not_lt.1 hlow)))
    have hbit := congrArg (fun x => BitVec.getLsbD x k) h
    simpa [hzero] using hbit

end Instruction

/-! ### The words of a row -/

/-- The section has the instruction `i` at `address`. -/
def Module.HasAt (m : Module) (place : Section) (address : Word) (i : Instruction) : Prop :=
  (m.base place).toNat ≤ address.toNat ∧
    i.bytes <+: (m.bytes place).toList.drop (address.toNat - (m.base place).toNat)

namespace Listing

variable {settings : Settings} {lines : List Line} {row : Row} {m : Mnemonic} {args : List Token}
  {e : Encoding}

/-- The module has the words of an encoding one behind the other. -/
theorem hasAt_of_encoding (hrow : row ∈ (ofLines settings lines).rows)
    (hplan : row.plan = .instruction m args)
    (he : Encoding.ofStatement settings.isa (ofLines settings lines).names row.address m.name args =
      .ok e) {n : Nat} {i : Instruction} (hi : e.words[n]? = some i) :
    ((ofLines settings lines).module settings).HasAt row.place
      (row.address + BitVec.ofNat 32 (4 * n)) i := by
  obtain ⟨hlt, hget⟩ := List.getElem?_eq_some_iff.1 hi
  have hn : n < m.length := by
    obtain ⟨b, -, rfl⟩ := Encoding.ofStatement_eq_ok (selected_of_mem hrow m args hplan) he
    rwa [Mnemonic.length_words] at hlt
  obtain ⟨before, after, -, hstands⟩ := stands_of_mem hrow
  refine ⟨?_, ?_⟩
  · rw [base_module, (toNat_wordAddress hrow hplan hn).1, hstands.toNat_address]
    omega
  · have hprefix := words_prefix hrow hplan he hn
    rw [List.drop_eq_getElem_cons hlt, hget, List.flatMap_cons] at hprefix
    rw [bytes_module, base_module]
    exact (List.prefix_append _ _).trans hprefix

/-- The module has the parts of a number in the words of its row, and what is wrong with the row is
only that the field does not hold all of the number. -/
theorem parts_of_encoding {kind : OperandKind} {arg : List Token} {expr : Expr} {origin v : Word}
    (hrow : row ∈ (ofLines settings lines).rows) (hplan : row.plan = .instruction m args)
    (hx : m.expression? (Line.splitArgs args) = some (kind, arg))
    (he : Encoding.ofStatement settings.isa (ofLines settings lines).names row.address m.name args =
      .ok e) (horigin : origin = row.address + BitVec.ofNat 32 (4 * m.fieldIndex))
    (hparse : Expr.parse arg = .ok expr)
    (heval : expr.eval (ofLines settings lines).names row.address = .ok (some v)) {n : Word}
    (hn : n = kind.amount ⟨(ofLines settings lines).names, row.address, origin⟩ expr v) :
    (∀ k part, (kind.parts n)[k]? = some part →
      ∃ i, ((ofLines settings lines).module settings).HasAt row.place
        (origin + BitVec.ofNat 32 (4 * k)) i ∧ kind.read i = part) ∧
    (row.realized settings.isa (ofLines settings lines).names).problems = kind.complaint n := by
  obtain ⟨expr', v', hv, -, hread, hwarnings⟩ :=
    Encoding.ofStatement_expression rfl (selected_of_mem hrow m args hplan) he hx
  -- the encoding has read the same expression, so it has the same number
  rw [Encoding.value_eq hparse heval] at hv
  obtain ⟨rfl, rfl⟩ := Prod.mk.inj (Except.ok.inj hv)
  rw [← horigin] at hread hwarnings
  subst hn
  refine ⟨fun k part hpart => ?_, ?_⟩
  · have hword : ((e.words.drop m.fieldIndex).map fun i => kind.read i)[k]? = some part :=
      hread ▸ hpart
    rw [List.getElem?_map, List.getElem?_drop, Option.map_eq_some_iff] at hword
    obtain ⟨i, hi, hpart⟩ := hword
    refine ⟨i, ?_, hpart⟩
    have hat := hasAt_of_encoding hrow hplan he hi
    rwa [Nat.mul_add, BitVec.ofNat_add, ← BitVec.add_assoc, ← horigin] at hat
  · simp only [Row.realized, hplan, he]
    exact hwarnings

end Listing

/-! ### Transfers of a source -/

/-- The row has a branch or a jump at `origin`, to be told by `kind`, whose operand refers to an
address and has the value `goal`. -/
def Row.Transfers (isa : Isa) (names : SymbolTable) (row : Row) (kind : OperandKind)
    (origin goal : Word) : Prop :=
  ∃ m args arg e expr, row.plan = .instruction m args ∧
    m.expression? (Line.splitArgs args) = some (kind, arg) ∧
    Encoding.ofStatement isa names row.address m.name args = .ok e ∧
    origin = row.address + BitVec.ofNat 32 (4 * m.fieldIndex) ∧
    Expr.parse arg = .ok expr ∧ expr.hasLabel names = true ∧
    expr.eval names row.address = .ok (some goal)

/-- No number on the line was cut. -/
def Assembly.KeepsNumbers (a : Assembly) (line : Nat) : Prop :=
  ∀ d ∈ a.diagnostics, d.line = line → d.problem.kind ≠ .numberCut

/-- The number for the field of a transfer from `origin` to `goal`. -/
def OperandKind.route (origin goal : Word) : OperandKind → Word
  | .offset => (goal - (origin + 4)).sshiftRight 2
  | _ => goal >>> 2

/-- A branch or jump to an address has the way there in its field. -/
theorem OperandKind.amount_eq_route {kind : OperandKind} (hkind : kind = .offset ∨ kind = .target)
    {names : SymbolTable} {expr : Expr} (hlabel : expr.hasLabel names = true)
    (address origin goal : Word) :
    kind.amount ⟨names, address, origin⟩ expr goal = kind.route origin goal := by
  rcases hkind with rfl | rfl
  · exact if_pos hlabel
  · exact if_pos hlabel

/-- The module has a transfer with its number in the field, and what is wrong with the row is only
that the field does not hold all of the number. -/
theorem Listing.field_of_transfers {settings : Settings} {lines : List Line} {row : Row}
    {kind : OperandKind} {origin goal : Word} (hrow : row ∈ (ofLines settings lines).rows)
    (hkind : kind = .offset ∨ kind = .target)
    (h : row.Transfers settings.isa (ofLines settings lines).names kind origin goal) :
    ∃ i, ((ofLines settings lines).module settings).HasAt row.place origin i ∧
      [kind.read i] = kind.parts (kind.route origin goal) ∧
      (row.realized settings.isa (ofLines settings lines).names).problems =
        kind.complaint (kind.route origin goal) := by
  obtain ⟨m, args, arg, e, expr, hplan, hx, he, horigin, hparse, hlabel, heval⟩ := h
  obtain ⟨hparts, hproblems⟩ := parts_of_encoding hrow hplan hx he horigin hparse heval
    (OperandKind.amount_eq_route hkind hlabel row.address origin goal).symm
  have hsingle : ∃ part, kind.parts (kind.route origin goal) = [part] := by
    rcases hkind with rfl | rfl <;> exact ⟨_, rfl⟩
  obtain ⟨part, hpart⟩ := hsingle
  obtain ⟨i, hat, hread⟩ := hparts 0 part (by rw [hpart]; rfl)
  refine ⟨i, ?_, by rw [hpart, hread], hproblems⟩
  rwa [Nat.mul_zero, BitVec.add_zero] at hat

/-- Where its number was not cut, the module has a transfer with all of the number in its field. -/
theorem Listing.word_of_transfers {settings : Settings} {lines : List Line} {row : Row}
    {kind : OperandKind} {origin goal : Word} (hrow : row ∈ (ofLines settings lines).rows)
    (hkind : kind = .offset ∨ kind = .target)
    (h : row.Transfers settings.isa (ofLines settings lines).names kind origin goal)
    (hkept : ∀ problem ∈ (row.realized settings.isa (ofLines settings lines).names).problems,
      problem.kind ≠ .numberCut) :
    ∃ i, ((ofLines settings lines).module settings).HasAt row.place origin i ∧
      [kind.read i] = kind.parts (kind.route origin goal) ∧
      kind.complaint (kind.route origin goal) = [] := by
  obtain ⟨i, hat, hread, hproblems⟩ := field_of_transfers hrow hkind h
  refine ⟨i, hat, hread, List.eq_nil_iff_forall_not_mem.2 fun problem hmem => ?_⟩
  -- a complaint would be a problem of the row in the second pass that cuts a number
  obtain ⟨field, rfl⟩ := OperandKind.cut_of_mem_complaint hmem
  exact hkept _ (hproblems ▸ hmem) rfl

/-- A branch or jump to an address without a warning is in the module where it was placed. The
branch goes to the address exactly if that is less than 0x20000 bytes ahead, and the jump exactly if
it is made in the region at zero. -/
theorem transfers_assemble (source : String) (settings : Settings) :
    let l := Listing.ofLines settings (Source.read source).lines
    ∃ a, assemble source settings = .ok a ∧
      ∀ row ∈ l.rows, a.KeepsNumbers row.line.number → ∀ origin goal,
        (row.Transfers settings.isa a.module.symbols .offset origin goal →
          goal.toNat % 4 = origin.toNat % 4 →
          ∃ i, a.module.HasAt row.place origin i ∧
            (i.branchTo origin = goal ↔ (goal - (origin + 4)).toInt < 0x20000)) ∧
        (row.Transfers settings.isa a.module.symbols .target origin goal →
          goal.toNat % 4 = 0 →
          ∃ i, a.module.HasAt row.place origin i ∧
            (i.jumpTo origin = goal ↔ (origin + 4) &&& 0xf0000000 = 0)) := by
  intro l
  obtain ⟨trace, hassemble⟩ := assemble_eq source settings rfl
  refine ⟨_, hassemble, ?_⟩
  intro row hrow hkeeps origin goal
  have hkept : ∀ problem ∈ (row.realized settings.isa l.names).problems,
      problem.kind ≠ .numberCut := by
    intro problem hmem
    refine hkeeps ⟨(row.realized settings.isa l.names).line, problem⟩
      (Diagnostic.mem_byLine.2 ?_) ?_
    · refine List.mem_append_left _ (List.mem_append_right _ ?_)
      exact List.mem_flatMap.2 ⟨row, hrow, List.mem_map_of_mem hmem⟩
    · exact Row.line_realized ..
  refine ⟨fun htransfers halign => ?_, fun htransfers halign => ?_⟩
  · obtain ⟨i, hat, hread, hwhole⟩ :=
      Listing.word_of_transfers hrow (Or.inl rfl) htransfers hkept
    exact ⟨i, hat, Instruction.branchTo_eq_iff_lt halign (List.singleton_inj.1 hread)
      (OperandKind.holds_of_complaint rfl hwhole)⟩
  · obtain ⟨i, hat, hread, hwhole⟩ :=
      Listing.word_of_transfers hrow (Or.inr rfl) htransfers hkept
    exact ⟨i, hat, Instruction.jumpTo_eq_iff halign (List.singleton_inj.1 hread)
      (OperandKind.holds_of_complaint rfl hwhole)⟩

/-- Near transfers in the region at zero reach their goal. -/
theorem near_transfers :
    ∃ a, assemble "top: b top\nj top" {} = .ok a ∧
      (∃ i, a.module.HasAt .text 0x400000 i ∧ i.branchTo 0x400000 = 0x400000) ∧
      ∃ i, a.module.HasAt .text 0x400004 i ∧ i.jumpTo 0x400004 = 0x400000 := by
  obtain ⟨a, ha, htransfers⟩ := transfers_assemble "top: b top\nj top" {}
  have hdiagnostics : (assemble "top: b top\nj top" {}).toOption.map (·.diagnostics) = some [] := by
    decide +kernel
  rw [ha] at hdiagnostics
  have hnone : a.diagnostics = [] := Option.some.inj hdiagnostics
  have hkeeps : ∀ line, a.KeepsNumbers line := by
    intro line d hd
    simp [hnone] at hd
  have hbranch := htransfers ⟨⟨1, some "top", some (.instruction "b" [⟨.name "top", "top"⟩])⟩,
    .text, 0x400000, .instruction (.pseudo "b" .b [.offset]) [⟨.name "top", "top"⟩]⟩
    (by decide +kernel) (hkeeps 1) 0x400000 0x400000
  have hjump := htransfers ⟨⟨2, none, some (.instruction "j" [⟨.name "top", "top"⟩])⟩,
    .text, 0x400004, .instruction (.real "j" (.jump 2) [.target]) [⟨.name "top", "top"⟩]⟩
    (by decide +kernel) (hkeeps 2) 0x400004 0x400000
  rw [module_assemble ha] at hbranch hjump
  obtain ⟨i, hat, hi⟩ := hbranch.1 ⟨_, _, [⟨.name "top", "top"⟩], ⟨[⟨0x1000ffff⟩], none, 0, []⟩,
    .symbol "top", rfl, by decide +kernel, by decide +kernel, by decide +kernel, by decide +kernel,
    by decide +kernel, by decide +kernel⟩ rfl
  obtain ⟨j, hat', hj⟩ := hjump.2 ⟨_, _, [⟨.name "top", "top"⟩], ⟨[⟨0x08100000⟩], none, 0, []⟩,
    .symbol "top", rfl, by decide +kernel, by decide +kernel, by decide +kernel, by decide +kernel,
    by decide +kernel, by decide +kernel⟩ rfl
  rw [← module_assemble ha] at hat hat'
  exact ⟨a, ha, ⟨i, hat, hi.2 (by decide)⟩, j, hat', hj.2 (by decide)⟩

/-- A transfer to an aligned address that goes elsewhere, and nothing is said about it. -/
def Misdirects (source : String) (settings : Settings) (kind : OperandKind)
    (goesTo : Word → Instruction → Word) : Prop :=
  ∃ a, assemble source settings = .ok a ∧ a.diagnostics = [] ∧
    ∃ row ∈ (Listing.ofLines settings (Source.read source).lines).rows, ∃ origin goal i,
      row.Transfers settings.isa a.module.symbols kind origin goal ∧
      goal.toNat % 4 = 0 ∧ origin.toNat % 4 = 0 ∧
      a.module.HasAt row.place origin i ∧ goesTo origin i ≠ goal

/-- A branch over 0x20000 bytes and a jump out of another region are misdirected. -/
theorem far_transfers_misdirected :
    Misdirects "b far\n.data\nfar:" { dataBase := 0x420004 } .offset Instruction.branchTo ∧
      Misdirects "main: nop\n.data\nj main" {} .target Instruction.jumpTo := by
  refine ⟨?_, ?_⟩
  · obtain ⟨trace, ha⟩ := assemble_eq "b far\n.data\nfar:" { dataBase := 0x420004 } rfl
    refine ⟨_, ha, ?_⟩
    dsimp only
    refine ⟨by decide +kernel, ⟨⟨1, none, some (.instruction "b" [⟨.name "far", "far"⟩])⟩, .text,
      0x400000, .instruction (.pseudo "b" .b [.offset]) [⟨.name "far", "far"⟩]⟩, by decide +kernel,
      0x400000, 0x420004, ⟨0x10008000⟩, ?_, by decide, by decide, ?_, by decide⟩
    · exact ⟨_, _, [⟨.name "far", "far"⟩], ⟨[⟨0x10008000⟩], none, 0, []⟩, .symbol "far", rfl,
        by decide +kernel, by decide +kernel, by decide +kernel, by decide +kernel,
        by decide +kernel, by decide +kernel⟩
    · exact ⟨by decide +kernel, by decide +kernel⟩
  · obtain ⟨trace, ha⟩ := assemble_eq "main: nop\n.data\nj main" {} rfl
    refine ⟨_, ha, ?_⟩
    dsimp only
    refine ⟨by decide +kernel, ⟨⟨3, none, some (.instruction "j" [⟨.name "main", "main"⟩])⟩, .data,
      0x10010000, .instruction (.real "j" (.jump 2) [.target]) [⟨.name "main", "main"⟩]⟩,
      by decide +kernel, 0x10010000, 0x400000, ⟨0x08100000⟩, ?_, by decide, by decide, ?_,
      by decide⟩
    · exact ⟨_, _, [⟨.name "main", "main"⟩], ⟨[⟨0x08100000⟩], none, 0, []⟩, .symbol "main", rfl,
        by decide +kernel, by decide +kernel, by decide +kernel, by decide +kernel,
        by decide +kernel, by decide +kernel⟩
    · exact ⟨by decide +kernel, by decide +kernel⟩

end Mips
