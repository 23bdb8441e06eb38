import Mips.Proofs.Encoding

/-!
# What is made of the operands

At most one operand of an instruction is an expression, and it is the last one. The number for its
field, the symbol to wait for and the warning all follow from the value of the expression
(`bindAll_expression`); without an expression there is neither a symbol nor a warning
(`bindAll_no_expression`). As the expression is the last operand, an operand that fails has no
warning before it (`ofStatement_error`).
-/

namespace Mips

namespace OperandKind

/-- Whether the operand is an expression. -/
def isExpression : OperandKind → Bool
  | .shift | .immediate | .full | .offset | .target => true
  | _ => false

/-- The field that the number of the operand is cut to; a full value is not cut. -/
def field? : OperandKind → Option Field
  | .shift => some .shift
  | .immediate => some .immediate
  | .offset => some .offset
  | .target => some .target
  | _ => none

/-- The number for the field of an operand with the expression `e` and the value `v`. -/
def amount (p : Encoding.Place) (e : Expr) (v : Word) : OperandKind → Word
  | .offset => Encoding.branchOffset p e v
  | .target => Encoding.jumpTarget p e v
  | _ => v

/-- Where the number of the operand is kept. -/
def slot (o : Operands) : OperandKind → Word
  | .shift => o.shift
  | _ => o.imm

/-- What the operand keeps of a number. -/
def kept (n : Word) (kind : OperandKind) : Word :=
  match kind.field? with
  | some field => field.cut n
  | none => n

/-- The warning about a number that the operand does not hold. -/
def complaint (n : Word) (kind : OperandKind) : List Problem :=
  match kind.field? with
  | some field => if field.holds n then [] else [.cut field n]
  | none => []

theorem cut_of_mem_complaint {kind : OperandKind} {n : Word} {w : Problem}
    (h : w ∈ kind.complaint n) : ∃ field, w = .cut field n := by
  unfold complaint at h
  split at h
  · next field _ =>
    split at h
    · simp at h
    · exact ⟨field, List.mem_singleton.1 h⟩
  · simp at h

theorem holds_of_complaint {kind : OperandKind} {field : Field} {n : Word}
    (hfield : kind.field? = some field) (h : kind.complaint n = []) : field.holds n = true := by
  unfold complaint at h
  rw [hfield] at h
  cases hholds : field.holds n with
  | true => rfl
  | false => simp [hholds] at h

end OperandKind

namespace Encoding

open OperandKind

variable {p : Place} {b b' : Bound} {arg : List Token}

/-! ### One operand -/

theorem value_eq_ok {e : Expr} {v : Option Word} (h : value p arg = .ok (e, v)) :
    Expr.parse arg = .ok e ∧ e.eval p.symbols p.address = .ok v := by
  unfold value at h
  split at h
  · simp at h
  · next e' hparse =>
    split at h
    · simp at h
    · next v' heval =>
      obtain ⟨rfl, rfl⟩ := Prod.mk.inj (Except.ok.inj h)
      exact ⟨hparse, heval⟩

theorem value_eq {e : Expr} {v : Option Word} (hparse : Expr.parse arg = .ok e)
    (heval : e.eval p.symbols p.address = .ok v) : value p arg = .ok (e, v) := by
  simp only [value, hparse, heval]

/-- The expression behind a number that was bound. -/
theorem number_eq_ok {field : Field} {adjust : Expr → Word → Word}
    {set : Operands → Word → Operands} (h : number p b arg field adjust set = .ok b') :
    ∃ e v, value p arg = .ok (e, v) ∧
      ((∃ x, v = some x ∧ b' = b.put field (adjust e x) set) ∨
        v = none ∧ b' = (b.awaiting p e).put field 0 set) := by
  unfold number at h
  split at h
  · simp at h
  · next e x hv => exact ⟨e, some x, hv, Or.inl ⟨x, rfl, (Except.ok.inj h).symm⟩⟩
  · next e hv => exact ⟨e, none, hv, Or.inr ⟨rfl, (Except.ok.inj h).symm⟩⟩

/-- An operand that is no expression leaves symbol and warnings as they are. -/
theorem bindOperand_plain {kind : OperandKind} (hk : kind.isExpression = false)
    (h : bindOperand p b kind arg = .ok b') :
    b'.symbol = b.symbol ∧ b'.warnings = b.warnings := by
  have hregister : ∀ f : Register → Bound, (register arg).map f = .ok b' → ∃ r, f r = b' := by
    intro f hf
    cases hr : register arg with
    | error q => rw [hr] at hf; simp [Except.map] at hf
    | ok r => rw [hr] at hf; exact ⟨r, Except.ok.inj hf⟩
  cases kind with
  | rd | rs | rt =>
    obtain ⟨r, rfl⟩ := hregister _ h
    exact ⟨rfl, rfl⟩
  | memory =>
    simp only [bindOperand] at h
    cases hm : memory p arg with
    | error q => rw [hm] at h; simp [Except.map] at h
    | ok r =>
      rw [hm] at h
      rw [← Except.ok.inj h]
      exact ⟨rfl, rfl⟩
  | shift | immediate | full | offset | target => simp [isExpression] at hk

/-- What is made of an operand with the expression `e` and the value `v`. -/
structure Made (p : Place) (b b' : Bound) (kind : OperandKind) (e : Expr) (v : Option Word) :
    Prop where
  symbol : b'.symbol = if v.isSome then b.symbol else b.symbol.or (e.unresolved? p.symbols)
  slot : kind.slot b'.operands = kind.kept ((v.map (kind.amount p e)).getD 0)
  warnings : b'.warnings = b.warnings ++ kind.complaint ((v.map (kind.amount p e)).getD 0)

theorem warnings_put {kind : OperandKind} {field : Field} (hfield : kind.field? = some field)
    (b : Bound) (n : Word) (set : Operands → Word → Operands) :
    (b.put field n set).warnings = b.warnings ++ kind.complaint n := by
  unfold Bound.put complaint
  rw [hfield]
  by_cases hholds : field.holds n = true
  · simp [hholds]
  · simp [hholds]

theorem slot_put {kind : OperandKind} {field : Field} {set : Operands → Word → Operands}
    (hfield : kind.field? = some field) (hset : ∀ o n, kind.slot (set o n) = n) (b : Bound)
    (n : Word) : kind.slot (b.put field n set).operands = kind.kept n := by
  rw [Bound.put, hset, kept, hfield]

theorem made_number {kind : OperandKind} {field : Field} {adjust : Expr → Word → Word}
    {set : Operands → Word → Operands} (hfield : kind.field? = some field)
    (hadjust : ∀ e v, adjust e v = kind.amount p e v) (hset : ∀ o n, kind.slot (set o n) = n)
    (h : number p b arg field adjust set = .ok b') :
    ∃ e v, value p arg = .ok (e, v) ∧ Made p b b' kind e v := by
  obtain ⟨e, v, hv, ⟨x, rfl, rfl⟩ | ⟨rfl, rfl⟩⟩ := number_eq_ok h
  · rw [hadjust]
    exact ⟨e, some x, hv, rfl, slot_put hfield hset b _, warnings_put hfield b _ set⟩
  · exact ⟨e, none, hv, rfl, slot_put hfield hset (b.awaiting p e) 0,
      warnings_put hfield (b.awaiting p e) 0 set⟩

/-- An expression is bound by its value. -/
theorem bindOperand_expression {kind : OperandKind} (hk : kind.isExpression = true)
    (h : bindOperand p b kind arg = .ok b') :
    ∃ e v, value p arg = .ok (e, v) ∧ Made p b b' kind e v := by
  cases kind with
  | shift | immediate | offset | target =>
    exact made_number rfl (fun _ _ => rfl) (fun _ _ => rfl) h
  | full =>
    simp only [bindOperand] at h
    split at h
    · simp at h
    · next e x hv =>
      have heq := Except.ok.inj h
      subst heq
      exact ⟨e, some x, hv, rfl, rfl, (List.append_nil _).symm⟩
    · next e hv =>
      have heq := Except.ok.inj h
      subst heq
      exact ⟨e, none, hv, rfl, rfl, (List.append_nil _).symm⟩
  | rd | rs | rt | memory => simp [isExpression] at hk

/-- An expression that can be evaluated can be bound. -/
theorem exists_bindOperand {kind : OperandKind} (hk : kind.isExpression = true)
    {e : Expr} {v : Option Word} (hv : value p arg = .ok (e, v)) (b : Bound) :
    ∃ b', bindOperand p b kind arg = .ok b' := by
  cases kind with
  | shift | immediate | offset | target =>
    simp only [bindOperand, number, hv]
    cases v with
    | none => exact ⟨_, rfl⟩
    | some x => exact ⟨_, rfl⟩
  | full =>
    simp only [bindOperand, hv]
    cases v with
    | none => exact ⟨_, rfl⟩
    | some x => exact ⟨_, rfl⟩
  | rd | rs | rt | memory => simp [isExpression] at hk

theorem register_eq_ok (h : (register arg).isOk = true) : ∃ r, register arg = .ok r := by
  cases hr : register arg with
  | error problem => simp [hr, Except.isOk, Except.toBool] at h
  | ok r => exact ⟨r, rfl⟩

/-- An operand that has to be a register and is one can be bound. -/
theorem exists_bindOperand_register {kind : OperandKind} (hk : kind.isExpression = false)
    (hmemory : kind ≠ .memory) (hregister : (register arg).isOk = true) (b : Bound) :
    ∃ b', bindOperand p b kind arg = .ok b' := by
  obtain ⟨r, hr⟩ := register_eq_ok hregister
  cases kind with
  | rd | rs | rt =>
    simp only [bindOperand, hr]
    exact ⟨_, rfl⟩
  | memory => exact absurd rfl hmemory
  | shift | immediate | full | offset | target => simp [isExpression] at hk

/-- Every warning about an operand is about a number that was cut. -/
theorem cut_of_mem_warnings {kind : OperandKind} {w : Problem}
    (h : bindOperand p b kind arg = .ok b') (hw : w ∈ b'.warnings) :
    w ∈ b.warnings ∨ ∃ field n, w = .cut field n := by
  cases hk : kind.isExpression with
  | true =>
    obtain ⟨e, v, -, hmade⟩ := bindOperand_expression hk h
    rw [hmade.warnings, List.mem_append] at hw
    rcases hw with hw | hw
    · exact Or.inl hw
    · obtain ⟨field, hcut⟩ := cut_of_mem_complaint hw
      exact Or.inr ⟨field, _, hcut⟩
  | false => exact Or.inl ((bindOperand_plain hk h).2 ▸ hw)

/-! ### All operands -/

/-- Every warning of an instruction is about a number that was cut. -/
theorem cut_of_mem_bindAll {w : Problem} : ∀ {args : List (OperandKind × List Token)} {b : Bound},
    bindAll p b args = .ok b' → w ∈ b'.warnings → w ∈ b.warnings ∨ ∃ field n, w = .cut field n
  | [], b, h, hw => by
    rw [← Except.ok.inj h] at hw
    exact Or.inl hw
  | (kind, arg) :: rest, b, h, hw => by
    simp only [bindAll] at h
    split at h
    · simp at h
    · next b₁ hb =>
      rcases cut_of_mem_bindAll h hw with hw | hcut
      · exact cut_of_mem_warnings hb hw
      · exact Or.inr hcut

/-- Without an expression there is neither a symbol nor a warning. -/
theorem bindAll_plain : ∀ {args : List (OperandKind × List Token)} {b : Bound},
    (∀ x ∈ args, x.1.isExpression = false) → bindAll p b args = .ok b' →
    b'.symbol = b.symbol ∧ b'.warnings = b.warnings
  | [], b, _, h => by
    rw [← Except.ok.inj h]
    exact ⟨rfl, rfl⟩
  | (kind, arg) :: rest, b, hk, h => by
    simp only [bindAll] at h
    split at h
    · simp at h
    · next b₁ hb =>
      obtain ⟨hsymbol, hwarnings⟩ := bindOperand_plain (hk _ List.mem_cons_self) hb
      obtain ⟨hsymbol', hwarnings'⟩ :=
        bindAll_plain (fun x hx => hk x (List.mem_cons_of_mem _ hx)) h
      exact ⟨hsymbol'.trans hsymbol, hwarnings'.trans hwarnings⟩

/-- Operands that can each be bound can be bound from left to right. -/
theorem exists_bindAll : ∀ {args : List (OperandKind × List Token)},
    (∀ x ∈ args, ∀ b, ∃ b', bindOperand p b x.1 x.2 = .ok b') → ∀ b, ∃ b', bindAll p b args = .ok b'
  | [], _, b => ⟨b, rfl⟩
  | (kind, arg) :: rest, h, b => by
    obtain ⟨b₁, hb₁⟩ := h _ List.mem_cons_self b
    simp only [bindAll, hb₁]
    exact exists_bindAll (fun x hx => h x (List.mem_cons_of_mem _ hx)) b₁

/-- No warning comes before a failure if only the last operand is an expression: a warning is about an
expression, and behind the last operand nothing can fail. -/
theorem bindAll_error {problems : List Problem} :
    ∀ {args : List (OperandKind × List Token)} {b : Bound},
    (∀ x ∈ args.dropLast, x.1.isExpression = false) → bindAll p b args = .error problems →
    ∃ problem, problems = b.warnings ++ [problem] ∧ problem.blamesOperand = true
  | [], b, _, h => by simp [bindAll] at h
  | (kind, arg) :: rest, b, hplain, h => by
    simp only [bindAll] at h
    split at h
    · next problem hb =>
      exact ⟨problem, (Except.error.inj h).symm, blamesOperand_bindOperand hb⟩
    · next b₁ hb =>
      cases rest with
      | nil => simp [bindAll] at h
      | cons x rest =>
        rw [List.dropLast_cons_cons] at hplain
        obtain ⟨problem, hproblems, hblames⟩ :=
          bindAll_error (fun x hx => hplain x (List.mem_cons_of_mem _ hx)) h
        rw [(bindOperand_plain (hplain _ List.mem_cons_self) hb).2] at hproblems
        exact ⟨problem, hproblems, hblames⟩

theorem bindAll_concat : ∀ {args : List (OperandKind × List Token)} {b : Bound} {kind : OperandKind}
    {arg : List Token}, bindAll p b (args ++ [(kind, arg)]) = .ok b' →
    ∃ b₁, bindAll p b args = .ok b₁ ∧ bindOperand p b₁ kind arg = .ok b'
  | [], b, kind, arg, h => by
    simp only [List.nil_append, bindAll] at h
    split at h
    · simp at h
    · next b₁ hb => exact ⟨b, rfl, Except.ok.inj h ▸ hb⟩
  | (kind', arg') :: rest, b, kind, arg, h => by
    simp only [List.cons_append, bindAll] at h ⊢
    split at h
    · simp at h
    · exact bindAll_concat h

end Encoding

/-! ### The operands of a mnemonic -/

namespace Mnemonic

/-- The operand that is an expression, with its tokens. -/
def expression? (m : Mnemonic) (args : List (List Token)) : Option (OperandKind × List Token) :=
  (m.operands.zip args).find? (·.1.isExpression)

/-- An expression can only be the last operand. -/
theorem isExpression_dropLast : ∀ m ∈ table, ∀ kind ∈ m.operands.dropLast,
    kind.isExpression = false := by decide

/-- An instruction with an expression has no operand in memory. -/
theorem ne_memory_of_expression : ∀ m ∈ table, ∀ kind ∈ m.operands,
    kind.isExpression = true → .memory ∉ m.operands := by decide

theorem isExpression_of_expression? {m : Mnemonic} {args : List (List Token)} {kind : OperandKind}
    {arg : List Token} (h : m.expression? args = some (kind, arg)) : kind.isExpression = true := by
  have hfound := List.find?_some h
  exact hfound

theorem zip_of_expression? {m : Mnemonic} {args : List (List Token)} {kind : OperandKind}
    {arg : List Token} (hm : m ∈ table) (hlength : m.operands.length = args.length)
    (h : m.expression? args = some (kind, arg)) :
    kind.isExpression = true ∧ ∃ init, m.operands.zip args = init ++ [(kind, arg)] ∧
      ∀ x ∈ init, x.1.isExpression = false := by
  obtain ⟨hk, init, rest, hzip, hinit⟩ := List.find?_eq_some_iff_append.1 h
  refine ⟨hk, init, ?_, fun x hx => by simpa using hinit x hx⟩
  have hkinds : m.operands = init.map Prod.fst ++ kind :: rest.map Prod.fst := by
    rw [← List.map_fst_zip (Nat.le_of_eq hlength), hzip]
    simp
  -- another operand behind the expression would make the expression one that is not the last
  rcases List.eq_nil_or_concat rest with rfl | ⟨rest', last, rfl⟩
  · exact hzip
  · have hmem : kind ∈ m.operands.dropLast := by
      rw [hkinds, List.concat_eq_append, List.map_append, ← List.cons_append, ← List.append_assoc]
      rw [List.map_singleton, List.dropLast_concat]
      exact List.mem_append_right _ List.mem_cons_self
    rw [isExpression_dropLast m hm kind hmem] at hk
    simp at hk

end Mnemonic

namespace Encoding

open OperandKind

variable {p : Place} {b : Bound} {m : Mnemonic} {args : List (List Token)}

/-- What becomes of an expression decides about the symbol, the field and the warnings. -/
theorem bindAll_expression {kind : OperandKind} {arg : List Token} (hm : m ∈ Mnemonic.table)
    (hlength : m.operands.length = args.length) (hx : m.expression? args = some (kind, arg))
    (h : bindAll p {} (m.operands.zip args) = .ok b) :
    ∃ e v, value p arg = .ok (e, v) ∧ Made p {} b kind e v := by
  obtain ⟨hk, init, hzip, hinit⟩ := Mnemonic.zip_of_expression? hm hlength hx
  rw [hzip] at h
  obtain ⟨b₁, hb₁, hb⟩ := bindAll_concat h
  obtain ⟨hsymbol, hwarnings⟩ := bindAll_plain hinit hb₁
  obtain ⟨e, v, hv, hmade⟩ := bindOperand_expression hk hb
  refine ⟨e, v, hv, ?_, hmade.slot, ?_⟩
  · rw [hmade.symbol, hsymbol]
  · rw [hmade.warnings, hwarnings]

/-- An expression with a value, behind registers only, can be bound. -/
theorem exists_bindAll_expression {kind : OperandKind} {arg : List Token} {e : Expr}
    {v : Option Word} (hm : m ∈ Mnemonic.table) (hlength : m.operands.length = args.length)
    (hx : m.expression? args = some (kind, arg)) (hv : value p arg = .ok (e, v))
    (hregisters : ∀ x ∈ m.operands.zip args, x.1.isExpression = false →
      (register x.2).isOk = true) :
    ∃ b, bindAll p {} (m.operands.zip args) = .ok b := by
  obtain ⟨hk, init, hzip, hinit⟩ := Mnemonic.zip_of_expression? hm hlength hx
  have hlast : (kind, arg) ∈ m.operands.zip args := by simp [hzip]
  have hmemory := Mnemonic.ne_memory_of_expression m hm kind (List.of_mem_zip hlast).1 hk
  refine exists_bindAll (fun x hmem b => ?_) {}
  cases hplain : x.1.isExpression with
  | false =>
    exact exists_bindOperand_register hplain
      (fun heq => hmemory (heq ▸ (List.of_mem_zip hmem).1)) (hregisters x hmem hplain) b
  | true =>
    -- only the last operand is an expression
    obtain hmem | rfl : x ∈ init ∨ x = (kind, arg) := by simpa [hzip] using hmem
    · simp [hinit x hmem] at hplain
    · exact exists_bindOperand hk hv b

/-- A statement whose mnemonic is selected can only fail for one of its operands, and no warning is
reported with it. -/
theorem ofStatement_error {isa : Isa} {names : SymbolTable} {address : Word} {name : String}
    {tokens : List Token} {problems : List Problem}
    (h : Mnemonic.select isa name (Line.splitArgs tokens).length = .ok m)
    (he : ofStatement isa names address name tokens = .error problems) :
    ∃ problem, problems = [problem] ∧ problem.blamesOperand = true := by
  have hm := Mnemonic.mem_table_of_select h
  have hlength := (Mnemonic.select_eq_ok h).2.2
  rw [ofStatement_eq h] at he
  split at he
  · next hb =>
    obtain rfl := Except.error.inj he
    refine bindAll_error (fun x hx => Mnemonic.isExpression_dropLast m hm x.1 ?_) hb
    rw [← List.map_fst_zip (Nat.le_of_eq hlength), ← List.map_dropLast]
    exact List.mem_map_of_mem hx
  · simp at he

theorem bindAll_no_expression (hx : m.expression? args = none)
    (h : bindAll p {} (m.operands.zip args) = .ok b) : b.symbol = none ∧ b.warnings = [] :=
  bindAll_plain (fun x hmem => by simpa using List.find?_eq_none.1 hx x hmem) h

end Encoding

end Mips
