import Mips.Proofs.Report
import Mips.Proofs.Spelling
import Mips.Proofs.Text

/-!
# Assembling what was disassembled

The text of an instruction is a line that the assembler accepts, and the word that it gives is the
instruction with the bits cleared that its mnemonic does not use (`assemble_text`). So nothing is
lost of an instruction that was encoded with the operands of its mnemonic only.

    i ──▶ text ──▶ name, operands ──▶ operands of i ──▶ i &&& mask
-/

namespace Mips

/-! ### The text of an instruction -/

/-- A mnemonic is written as a name, is found by it, and is in the last revision. -/
theorem Mnemonic.name_of_mem : ∀ m ∈ table, m.name ≠ "illegal" ∧
    m.name.toList.head?.any isNameStart = true ∧ m.name.toList.tail.all isNameChar = true ∧
    ofName? m.name = some m ∧ m.since ≤ .mips32 := by decide +kernel

theorem Mnemonic.reads_name {m : Mnemonic} (hm : m ∈ table) :
    Token.Reads m.name.toList [⟨.name m.name, m.name⟩] := by
  obtain ⟨-, hstart, hrest, -⟩ := name_of_mem m hm
  cases hname : m.name.toList with
  | nil => simp [hname] at hstart
  | cons c cs =>
    simp only [hname, List.head?_cons, Option.any_some, List.tail_cons, List.all_eq_true]
      at hstart hrest
    have hreads := Token.Reads.name hstart hrest
    rw [← hname, String.ofList_toList, hname] at hreads
    exact hreads

namespace Instruction

open Token

variable (i : Instruction)

/-- The operands of a text are bound one after the other to what `i` has in their fields. -/
theorem exists_operands (bits : Bool) : ∀ kinds : List OperandKind, ∃ args : List (List Token),
    args.length = kinds.length ∧ (∀ arg ∈ args, IsArg arg) ∧
    Reads (", ".intercalate (kinds.map fun kind => i.shownText (kind.shown bits))).toList
      (List.intercalate [⟨.comma, ","⟩] args) ∧
    ∀ p b, Encoding.bindAll p b (kinds.zip args) =
      .ok { b with operands := kinds.foldl i.fill b.operands }
  | [] => ⟨[], rfl, by simp, Reads.nil, fun _ _ => rfl⟩
  | kind :: kinds => by
    obtain ⟨arg, hreads, harg, hbind⟩ := i.exists_operand bits kind
    obtain ⟨args, hlength, hargs, hreads', hbind'⟩ := exists_operands bits kinds
    refine ⟨arg :: args, congrArg (· + 1) hlength, ?_, ?_, fun p b => ?_⟩
    · intro a ha
      rcases List.mem_cons.1 ha with rfl | ha
      · exact harg
      · exact hargs a ha
    · cases kinds with
      | nil =>
        obtain rfl := List.length_eq_zero_iff.1 hlength
        simpa using hreads
      | cons kind' kinds =>
        obtain ⟨arg', args, rfl⟩ := List.exists_cons_of_length_eq_add_one hlength
        have htext : (", ".intercalate
              ((kind :: kind' :: kinds).map fun kind => i.shownText (kind.shown bits))).toList =
            (i.shownText (kind.shown bits)).toList ++ ',' :: ' ' ::
              (", ".intercalate
                ((kind' :: kinds).map fun kind => i.shownText (kind.shown bits))).toList := by
          simp [String.intercalate_cons_cons]
        rw [htext, List.intercalate_cons_cons, List.append_assoc]
        exact hreads.append hreads'.blank.comma (by decide)
    · rw [List.zip_cons_cons, Encoding.bindAll, hbind]
      exact hbind' p _

theorem textAs_display (m : Mnemonic) : ∃ bits, i.textAs m.display =
    if m.operands = [] then m.name
    else m.name ++ " " ++
      ", ".intercalate (m.operands.map fun kind => i.shownText (kind.shown bits)) := by
  obtain ⟨bits, hdisplay⟩ := m.exists_display
  refine ⟨bits, ?_⟩
  rw [hdisplay, textAs]
  cases m.operands with
  | nil => rfl
  | cons kind kinds => simp [Function.comp_def]

/-- The text of `i` as `m` is cut into the name of `m` and its operands. -/
theorem exists_text {m : Mnemonic} (hm : m ∈ Mnemonic.table) : ∃ args : List (List Token),
    args.length = m.operands.length ∧ (∀ arg ∈ args, IsArg arg) ∧
    Reads (i.textAs m.display).toList
      (⟨.name m.name, m.name⟩ :: List.intercalate [⟨.comma, ","⟩] args) ∧
    ∀ p, Encoding.bindAll p {} (m.operands.zip args) =
      .ok { operands := i.operandsOf m.operands } := by
  have hname := Mnemonic.reads_name hm
  obtain ⟨bits, htext⟩ := i.textAs_display m
  obtain ⟨args, hlength, hargs, hreads, hbind⟩ := i.exists_operands bits m.operands
  refine ⟨args, hlength, hargs, ?_, fun p => hbind p {}⟩
  rw [htext]
  split
  · next hnone =>
    rw [hnone] at hlength
    obtain rfl := List.length_eq_zero_iff.1 hlength
    exact hname
  · rw [String.toList_append, String.toList_append, List.append_assoc]
    exact hname.append hreads.blank (by decide)

/-- Only a word without a code is shown as `illegal`. -/
theorem textAs_display_ne {m : Mnemonic} (hm : m ∈ Mnemonic.table) :
    i.textAs m.display ≠ "illegal" := by
  obtain ⟨bits, htext⟩ := i.textAs_display m
  rw [htext]
  split
  · exact (Mnemonic.name_of_mem m hm).1
  · intro h
    have hblank : ' ' ∈ "illegal".toList := by
      rw [← h]
      simp
    exact absurd hblank (by decide)

/-- The text is that of the row with the code of `i`, if there is one. -/
theorem text_eq : i.text = match Mnemonic.ofInstruction? i with
    | some m => i.textAs m.display
    | none => "illegal" := by
  rw [text, Display.ofInstruction?_eq]
  cases Mnemonic.ofInstruction? i with
  | none => rfl
  | some m => rfl

/-- A word is shown as `illegal` if it has the code of no real instruction. -/
theorem text_eq_illegal_iff : i.text = "illegal" ↔
    ∀ m ∈ Mnemonic.table, ∀ f, m.meaning = .real f → i.hasFormat f = false := by
  rw [text_eq]
  cases hfound : Mnemonic.ofInstruction? i with
  | none =>
    refine iff_of_true rfl fun m hm f hf => Bool.eq_false_iff.2 fun hformat => ?_
    rw [i.hasFormat_iff (Mnemonic.real_of_mem hm hf).1] at hformat
    have hsome := Mnemonic.isSome_ofInstruction? hm (hformat ▸ hf)
    simp [hfound] at hsome
  | some m =>
    obtain ⟨hm, hmeaning⟩ := Mnemonic.mem_of_ofInstruction? hfound
    refine iff_of_false (i.textAs_display_ne hm) fun hall => ?_
    have hformat := i.hasFormat_format hm hmeaning
    rw [hall m hm _ hmeaning] at hformat
    simp at hformat

end Instruction

/-! ### A source of one instruction -/

/-- Assembling `source` gives the word of `i` in the text section, and nothing else. -/
def Gives (settings : Settings) (source : String) (i : Instruction) : Prop :=
  ∃ a, assemble source settings = .ok a ∧ a.diagnostics = [] ∧
    a.module =
      { textBase := settings.textBase, dataBase := settings.dataBase, text := i.bytes.toArray
        data := #[], symbols := .empty, relocations := [] }

theorem Source.read_line {source : String} (h : '\n' ∉ source.toList) {s : Statement}
    (hread : Line.read 1 source.toList = (some ⟨1, none, some s⟩, [])) :
    (read source).lines = [⟨1, none, some s⟩] ∧ (read source).diagnostics = [] := by
  have hne : source.toList ≠ [] := by
    intro hnil
    rw [hnil, Line.read_nil] at hread
    simp at hread
  rw [lines_read, diagnostics_read, Text.lines_of_not_mem h, if_neg hne, linesFrom, reportFrom,
    hread]
  exact ⟨rfl, rfl⟩

section

variable {settings : Settings} {m : Mnemonic} {args : List Token}

/-- The line of an instruction that stands alone. -/
def Line.alone (m : Mnemonic) (args : List Token) : Line :=
  ⟨1, none, some (.instruction m.name args)⟩

/-- The first line has its place at the start of the text section. -/
theorem Layout.placeLines_alone
    (hselect : Mnemonic.select settings.isa m.name (Line.splitArgs args).length = .ok m)
    (hroom : settings.textBase.toNat + m.size ≤ 0xffffffff) :
    (placeLines settings.isa (.start settings) [.alone m args]).2 =
      [⟨.alone m args, .text, settings.textBase, .instruction m args, [], none⟩] := by
  have hstart : (Image.start settings).current.hasRoom m.size = true := decide_eq_true hroom
  have haddress : (Image.start settings).address = settings.textBase := BitVec.add_zero _
  simp only [placeLines, placeLine, Line.alone, bindLabel, placeStatement, placeInstruction,
    hselect, hstart, haddress, if_true]
  rfl

theorem Listing.ofLines_alone
    (hselect : Mnemonic.select settings.isa m.name (Line.splitArgs args).length = .ok m)
    (hroom : settings.textBase.toNat + m.size ≤ 0xffffffff) :
    ofLines settings [.alone m args] =
      ⟨[⟨.alone m args, .text, settings.textBase, .instruction m args⟩], .empty⟩ := by
  have hroom' : Row.hasRoom settings [] m.size = true := decide_eq_true hroom
  have haddress : Row.nextAddress settings [] = settings.textBase := BitVec.add_zero _
  simp only [ofLines, List.foldl_cons, List.foldl_nil, add, row, known, empty, Line.alone, labelled,
    plan, hselect, hroom', haddress, if_true, namesAfter]
  rfl

/-- An instruction alone in a source is encoded at the start of the text section. -/
theorem gives_of_read {source : String} (h : '\n' ∉ source.toList) {i : Instruction} {n : Nat}
    (hread : Line.read 1 source.toList = (some (.alone m args), []))
    (hselect : Mnemonic.select settings.isa m.name (Line.splitArgs args).length = .ok m)
    (hroom : settings.textBase.toNat + m.size ≤ 0xffffffff)
    (hencode : Encoding.ofStatement settings.isa .empty settings.textBase m.name args =
      .ok ⟨[i], none, n, []⟩) :
    Gives settings source i := by
  obtain ⟨hlines, hreport⟩ := Source.read_line h hread
  obtain ⟨a, hassemble⟩ := exists_assembly source settings
  have hplaced : (Layout.placeLines settings.isa (.start settings) (Source.read source).lines).2 =
      [⟨.alone m args, .text, settings.textBase, .instruction m args, [], none⟩] := by
    rw [hlines]
    exact Layout.placeLines_alone hselect hroom
  have hmodule : a.module =
      { textBase := settings.textBase, dataBase := settings.dataBase, text := i.bytes.toArray
        data := #[], symbols := .empty, relocations := [] } := by
    rw [module_assemble hassemble, hlines]
    change (Listing.ofLines settings [.alone m args]).module settings = _
    rw [Listing.ofLines_alone hselect hroom]
    simp [Listing.module, Row.bytesIn, Row.bytes, Plan.bytes, Row.realized, hencode]
  refine ⟨a, hassemble, ?_, hmodule⟩
  rw [diagnostics_assemble hassemble hplaced, hreport, hmodule]
  simp [Placed.diagnostics, Placed.row, Row.realized, hencode, Realized.diagnostics,
    Assembly.undefinedSymbols, Assembly.references, Diagnostic.byLine]

end

/-! ### Instructions that are assembled again -/

namespace Instruction

/-- The text of `i` as a row with its code gives `i` without the bits that are not used. -/
theorem gives_textAs (i : Instruction) {settings : Settings} (hisa : settings.isa = .mips32)
    (hroom : settings.textBase.toNat + 4 ≤ 0xffffffff) {m : Mnemonic} (hm : m ∈ Mnemonic.table)
    {f : Format} (hf : m.meaning = .real f) (h : i.hasFormat f = true) :
    Gives settings (i.textAs m.display) ⟨i.word &&& m.mask⟩ := by
  obtain ⟨-, -, -, hname, hsince⟩ := Mnemonic.name_of_mem m hm
  obtain ⟨args, hlength, hargs, hreads, hbind⟩ := i.exists_text hm
  have hsplit : Line.splitArgs (List.intercalate [⟨.comma, ","⟩] args) = args :=
    Line.splitArgs_intercalate rfl fun arg harg =>
      ⟨(hargs arg harg).1, fun t ht => ((hargs arg harg).2 t ht).1⟩
  have hselect : Mnemonic.select settings.isa m.name
      (Line.splitArgs (List.intercalate [⟨.comma, ","⟩] args)).length = .ok m := by
    simp [Mnemonic.select, hname, hisa, hsince, hsplit, hlength]
  have hassign : ∀ t ∈ List.intercalate [⟨.comma, ","⟩] args, t.kind ≠ .assign := by
    intro t ht
    rcases Line.mem_of_mem_intercalate ht with rfl | ⟨arg, harg, ht⟩
    · simp
    · exact ((hargs arg harg).2 t ht).2
  have hsize : m.size = 4 := by simp [Mnemonic.size, Mnemonic.length, hf]
  have hwords : m.words (i.operandsOf m.operands) = [⟨i.word &&& m.mask⟩] := by
    simp only [Mnemonic.words, hf, i.encode_operandsOf hm hf h]
  have hencode : Encoding.ofStatement settings.isa .empty settings.textBase m.name
      (List.intercalate [⟨.comma, ","⟩] args) =
        .ok ⟨[⟨i.word &&& m.mask⟩], none, m.fieldIndex, []⟩ := by
    rw [Encoding.ofStatement_eq hselect, hsplit, hbind]
    simp only [hwords]
  exact gives_of_read (fun hmem => (hreads.plain _ hmem).1 rfl)
    (Line.read_instruction hreads hassign 1) hselect (by rw [hsize]; exact hroom) hencode

/-- The text of `i`, if it has a code, gives `i` without the bits that are not used. -/
theorem gives_text (i : Instruction) {settings : Settings} (hisa : settings.isa = .mips32)
    (hroom : settings.textBase.toNat + 4 ≤ 0xffffffff) (hlegal : i.text ≠ "illegal") :
    ∃ m ∈ Mnemonic.table, m.meaning = .real i.format ∧ i.hasFormat i.format = true ∧
      i.text = i.textAs m.display ∧ Mnemonic.ofInstruction? i = some m ∧
      Gives settings i.text ⟨i.word &&& m.mask⟩ := by
  have htext := i.text_eq
  cases hfound : Mnemonic.ofInstruction? i with
  | none => exact absurd (by rw [htext, hfound]) hlegal
  | some m =>
    rw [hfound] at htext
    obtain ⟨hm, hmeaning⟩ := Mnemonic.mem_of_ofInstruction? hfound
    have hformat := i.hasFormat_format hm hmeaning
    have hgives := i.gives_textAs hisa hroom hm hmeaning hformat
    exact ⟨m, hm, hmeaning, hformat, htext, rfl, htext ▸ hgives⟩

/-- What was encoded with the operands of a mnemonic only is given again as it is. -/
theorem gives_encode {settings : Settings} (hisa : settings.isa = .mips32)
    (hroom : settings.textBase.toNat + 4 ≤ 0xffffffff) {m : Mnemonic} (hm : m ∈ Mnemonic.table)
    {f : Format} (hf : m.meaning = .real f) {o : Operands} (h : o.Only m.operands) :
    (encode f o).text ≠ "illegal" ∧ Gives settings (encode f o).text (encode f o) := by
  have hcoded := (Mnemonic.real_of_mem hm hf).1
  have hformat : (encode f o).hasFormat f = true :=
    ((encode f o).hasFormat_iff hcoded).2 (format_encode hcoded o)
  have hlegal : (encode f o).text ≠ "illegal" := by
    intro htext
    rw [(encode f o).text_eq_illegal_iff.1 htext m hm f hf] at hformat
    simp at hformat
  obtain ⟨m', -, -, -, -, hfound, hgives⟩ := (encode f o).gives_text hisa hroom hlegal
  rw [Mnemonic.and_mask_of_ofInstruction? hm hf h hfound] at hgives
  exact ⟨hlegal, hgives⟩

end Instruction

/-- Assembling the text of an instruction gives the instruction again, without the bits that its
mnemonic does not use; with nothing but the operands of a mnemonic there are no such bits. Only a
word that has the code of no real instruction is not shown as one. -/
theorem assemble_text (i : Instruction) (settings : Settings) (hisa : settings.isa = .mips32)
    (hroom : settings.textBase.toNat + 4 ≤ 0xffffffff) :
    (i.text = "illegal" ↔
      ∀ m ∈ Mnemonic.table, ∀ f, m.meaning = .real f → i.hasFormat f = false) ∧
    (i.text ≠ "illegal" → ∃ m ∈ Mnemonic.table, ∃ f, m.meaning = .real f ∧
      i.hasFormat f = true ∧ i.text = i.textAs m.display ∧
      Gives settings i.text ⟨i.word &&& m.mask⟩) ∧
    (∀ m ∈ Mnemonic.table, ∀ f o, m.meaning = .real f → o.Only m.operands →
      i = .encode f o → i.text ≠ "illegal" ∧ Gives settings i.text i) := by
  refine ⟨i.text_eq_illegal_iff, fun hlegal => ?_, ?_⟩
  · obtain ⟨m, hm, hmeaning, hformat, htext, -, hgives⟩ := i.gives_text hisa hroom hlegal
    exact ⟨m, hm, i.format, hmeaning, hformat, htext, hgives⟩
  · rintro m hm f o hmeaning honly rfl
    exact Instruction.gives_encode hisa hroom hm hmeaning honly

/-- The bits of a jump to a register that no operand goes to are cleared. -/
theorem jr_cleared :
    (⟨0x03ffffc8⟩ : Instruction).text = "jr $ra" ∧ Gives {} "jr $ra" ⟨0x03e00008⟩ := by
  have htext : (⟨0x03ffffc8⟩ : Instruction).text = "jr $ra" := by decide +kernel
  obtain ⟨-, hgives, -⟩ := assemble_text ⟨0x03ffffc8⟩ {} rfl (by decide)
  obtain ⟨m, hm, f, hmeaning, hformat, -, hword⟩ := hgives (by rw [htext]; decide)
  rw [Instruction.hasFormat_iff _ (Mnemonic.real_of_mem hm hmeaning).1] at hformat
  obtain rfl : .register 8 = f := hformat
  have hmask : ∀ m ∈ Mnemonic.table, m.meaning = .real (.register 8) →
      (0x03ffffc8 : Word) &&& m.mask = 0x03e00008 := by decide
  rw [htext, hmask m hm hmeaning] at hword
  exact ⟨htext, hword⟩

end Mips
