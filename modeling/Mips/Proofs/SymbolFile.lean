import Mips.Object.SymbolFile
import Mips.Proofs.Name
import Mips.Proofs.Text

/-!
# Reading a symbol file back

A symbol file is a list of lines, and the names of a module are legal, so that none of them breaks a
line. The lines of a table start with different letters, so that an absent value is seen from the
line that comes instead (`optional_append_inj`), and the header of a table tells a symbol from a
relocation. So the file fixes the bases of a module, its symbols and its relocations, each in order.

    text_base = 4194304         [[symbols]]                 [[relocations]]
    data_base = 268500992       name = 'main'               address = 4194304
                                address = 4194304           symbol = 'printf'
                                section = 'Text'
                                global = false
-/

namespace Mips

/-- All names in a module are legal. -/
structure Module.Named (m : Module) : Prop where
  symbols : ∀ s ∈ m.symbols.symbols, LegalName s.name
  relocations : ∀ r ∈ m.relocations, LegalName r.symbol

theorem named_module {source : String} {settings : Settings} {a : Assembly}
    (h : assemble source settings = .ok a) : a.module.Named := by
  have hlines : ∀ line ∈ (Source.read source).lines, line.Named :=
    fun _ hline => Source.named_read hline
  rw [module_assemble h]
  exact ⟨Listing.legalName_of_mem_names hlines, Listing.legalName_of_mem_relocations hlines⟩

namespace SymbolFile

/-! ### Lines -/

/-- A line with a value. -/
def line (key value : String) : List Char := key.toList ++ (" = ".toList ++ value.toList)

/-- The lines of a symbol, behind the header of its table. -/
def symbolBody (s : Symbol) : List (List Char) :=
  [line "name" (quoted s.name)] ++ ((s.address.map fun a => line "address" (number a)).toList ++
    ((s.home.map fun home => line "section" (quoted home.name)).toList ++
      [line "global" (if s.isGlobal then "true" else "false")]))

/-- The lines of a relocation, behind the header of its table. -/
def relocationBody (r : Relocation) : List (List Char) :=
  [line "address" (number r.address)] ++ [line "symbol" (quoted r.symbol)]

/-- The lines of the table of a symbol. -/
def symbolLines (s : Symbol) : List (List Char) := [[], "[[symbols]]".toList] ++ symbolBody s

/-- The lines of the table of a relocation. -/
def relocationLines (r : Relocation) : List (List Char) :=
  [[], "[[relocations]]".toList] ++ relocationBody r

/-- The lines of a symbol file. -/
def lines (m : Module) : List (List Char) :=
  [line "text_base" (number m.textBase)] ++ ([line "data_base" (number m.dataBase)] ++
    (m.symbols.symbols.flatMap symbolLines ++ m.relocations.flatMap relocationLines))

/-- The text that consists of the given lines. -/
def ofLines (ls : List (List Char)) : List Char := ls.flatMap (· ++ ['\n'])

theorem ofLines_append (ls ms : List (List Char)) : ofLines (ls ++ ms) = ofLines ls ++ ofLines ms :=
  List.flatMap_append

theorem toList_entry (key value : String) : (entry key value).toList = ofLines [line key value] := by
  simp [entry, ofLines, line]

theorem toList_optional (key : String) {α : Type} (f : α → String) (x : Option α) :
    (String.toList <| entry? key (x.map f)) = ofLines (x.map fun a => line key (f a)).toList := by
  cases x with
  | none => rfl
  | some a => exact toList_entry key (f a)

theorem toList_symbolTable (s : Symbol) : (symbolTable s).toList = ofLines (symbolLines s) := by
  have hheader : "\n[[symbols]]\n".toList = ofLines [[], "[[symbols]]".toList] := by decide +kernel
  -- the header is a variable here, or its letters are unfolded
  have hbody : ∀ header : String, (header ++ entry "name" (quoted s.name) ++
      entry? "address" (s.address.map number) ++ entry? "section" (s.home.map (quoted ·.name)) ++
      entry "global" (if s.isGlobal then "true" else "false")).toList =
        header.toList ++ ofLines (symbolBody s) := by
    intro header
    simp only [String.toList_append, toList_entry, toList_optional, symbolBody, ofLines_append,
      List.append_assoc]
  rw [symbolLines, ofLines_append, ← hheader]
  exact hbody _

theorem toList_relocationTable (r : Relocation) :
    (relocationTable r).toList = ofLines (relocationLines r) := by
  have hheader : "\n[[relocations]]\n".toList = ofLines [[], "[[relocations]]".toList] := by
    decide +kernel
  have hbody : ∀ header : String, (header ++ entry "address" (number r.address) ++
      entry "symbol" (quoted r.symbol)).toList = header.toList ++ ofLines (relocationBody r) := by
    intro header
    simp only [String.toList_append, toList_entry, relocationBody, ofLines_append,
      List.append_assoc]
  rw [relocationLines, ofLines_append, ← hheader]
  exact hbody _

theorem toList_join_map {α : Type} {f : α → String} {g : α → List (List Char)}
    (h : ∀ x, (f x).toList = ofLines (g x)) (xs : List α) :
    (String.join (xs.map f)).toList = ofLines (xs.flatMap g) := by
  induction xs with
  | nil => rfl
  | cons x xs ih =>
    rw [String.toList_join] at ih ⊢
    rw [List.map_cons, List.flatMap_cons, List.flatMap_cons, ih, h, ofLines_append]

theorem toList_symbolFile (m : Module) : m.symbolFile.toList = ofLines (lines m) := by
  simp only [Module.symbolFile, lines, String.toList_append, toList_entry, ofLines_append,
    toList_join_map toList_symbolTable, toList_join_map toList_relocationTable, List.append_assoc]

/-- Lines without a line feed are the pieces of their text. -/
theorem pieces_ofLines {ls : List (List Char)} (h : ∀ l ∈ ls, '\n' ∉ l) :
    Text.pieces (ofLines ls) = ls ++ [[]] := by
  induction ls with
  | nil => rfl
  | cons l ls ih =>
    have htext : ofLines (l :: ls) = l ++ '\n' :: ofLines ls := by simp [ofLines]
    rw [htext, Text.pieces_feed _ (h l List.mem_cons_self),
      ih fun l hl => h l (List.mem_cons_of_mem _ hl)]
    rfl

/-! ### No name breaks a line -/

theorem feed_not_mem_line {key value : String} (hkey : '\n' ∉ key.toList)
    (hvalue : '\n' ∉ value.toList) : '\n' ∉ line key value := by
  have hequals : '\n' ∉ " = ".toList := by decide
  simp only [line, List.mem_append, not_or]
  exact ⟨hkey, hequals, hvalue⟩

theorem feed_not_mem_quoted {s : String} (h : '\n' ∉ s.toList) : '\n' ∉ (quoted s).toList := by
  have hquote : '\n' ∉ "'".toList := by decide
  simp only [quoted, String.toList_append, List.mem_append, not_or]
  exact ⟨⟨hquote, h⟩, hquote⟩

theorem toList_number (w : Word) : (number w).toList = Nat.toDigits 10 w.toNat := by
  rw [number, Nat.toString_eq_ofList_toDigits, String.toList_ofList]

theorem feed_not_mem_number (w : Word) : '\n' ∉ (number w).toList := by
  intro h
  rw [toList_number] at h
  have hchar := Token.isNameChar_of_mem_toDigits (by decide) (by decide) w.toNat '\n' h
  exact absurd hchar (by decide)

theorem feed_not_mem_name {name : String} (h : LegalName name) : '\n' ∉ name.toList := by
  intro hmem
  rcases h.chars '\n' hmem with hchar | hchar
  · exact absurd hchar (by decide)
  · exact absurd hchar (by decide)

theorem feed_not_mem_symbolBody {s : Symbol} (h : LegalName s.name) :
    ∀ l ∈ symbolBody s, '\n' ∉ l := by
  intro l hl
  simp only [symbolBody, List.mem_append, List.mem_singleton, Option.mem_toList,
    Option.map_eq_some_iff] at hl
  rcases hl with rfl | ⟨a, -, rfl⟩ | ⟨home, -, rfl⟩ | rfl
  · exact feed_not_mem_line (by decide) (feed_not_mem_quoted (feed_not_mem_name h))
  · exact feed_not_mem_line (by decide) (feed_not_mem_number a)
  · refine feed_not_mem_line (by decide) (feed_not_mem_quoted ?_)
    cases home <;> decide
  · refine feed_not_mem_line (by decide) ?_
    cases s.isGlobal <;> decide

theorem feed_not_mem_relocationBody {r : Relocation} (h : LegalName r.symbol) :
    ∀ l ∈ relocationBody r, '\n' ∉ l := by
  intro l hl
  simp only [relocationBody, List.mem_append, List.mem_singleton] at hl
  rcases hl with rfl | rfl
  · exact feed_not_mem_line (by decide) (feed_not_mem_number r.address)
  · exact feed_not_mem_line (by decide) (feed_not_mem_quoted (feed_not_mem_name h))

theorem feed_not_mem_lines {m : Module} (h : m.Named) : ∀ l ∈ lines m, '\n' ∉ l := by
  have hsymbols : ∀ l ∈ [[], "[[symbols]]".toList], '\n' ∉ l := by decide
  have hrelocations : ∀ l ∈ [[], "[[relocations]]".toList], '\n' ∉ l := by decide
  intro l hl
  simp only [lines, List.mem_append, List.mem_singleton, List.mem_flatMap] at hl
  rcases hl with rfl | rfl | ⟨s, hs, hl⟩ | ⟨r, hr, hl⟩
  · exact feed_not_mem_line (by decide) (feed_not_mem_number m.textBase)
  · exact feed_not_mem_line (by decide) (feed_not_mem_number m.dataBase)
  · rcases List.mem_append.1 hl with hl | hl
    · exact hsymbols l hl
    · exact feed_not_mem_symbolBody (h.symbols s hs) l hl
  · rcases List.mem_append.1 hl with hl | hl
    · exact hrelocations l hl
    · exact feed_not_mem_relocationBody (h.relocations r hr) l hl

/-! ### Lines tell what they were made of -/

theorem line_inj {key value value' : String} (h : line key value = line key value') :
    value = value' :=
  String.toList_inj.1 (List.append_cancel_left (List.append_cancel_left h))

theorem quoted_inj {s s' : String} (h : quoted s = quoted s') : s = s' := by
  have hchars := congrArg String.toList h
  simp only [quoted, String.toList_append] at hchars
  exact String.toList_inj.1 (List.append_cancel_left (List.append_cancel_right hchars))

theorem number_inj {w w' : Word} (h : number w = number w') : w = w' := by
  have hdigits := congrArg String.toList h
  rw [toList_number, toList_number] at hdigits
  have hvalue := congrArg (fun ds => Nat.ofDigitChars 10 ds 0) hdigits
  exact BitVec.eq_of_toNat_eq (by simpa using hvalue)

theorem name_inj {home home' : Section} (h : quoted home.name = quoted home'.name) :
    home = home' := by
  have hname := quoted_inj h
  revert hname
  cases home <;> cases home' <;> decide

theorem flag_inj {b b' : Bool}
    (h : (if b then "true" else "false") = if b' then "true" else "false") : b = b' := by
  revert h
  cases b <;> cases b' <;> decide

/-- A line that may be missing is seen by its first letter. -/
theorem optional_append_inj {α : Type} {f : α → List Char} {c : Char}
    (hinj : ∀ x y, f x = f y → x = y) (hfirst : ∀ x, (f x).head? = some c)
    {x y : Option α} {rest rest' : List (List Char)} (hrest : ∀ l ∈ rest.head?, l.head? ≠ some c)
    (hrest' : ∀ l ∈ rest'.head?, l.head? ≠ some c)
    (h : (x.map f).toList ++ rest = (y.map f).toList ++ rest') : x = y ∧ rest = rest' := by
  cases x with
  | none =>
    cases y with
    | none => exact ⟨rfl, h⟩
    | some b =>
      obtain rfl : rest = f b :: rest' := h
      exact absurd (hfirst b) (hrest (f b) rfl)
  | some a =>
    cases y with
    | none =>
      obtain rfl : f a :: rest = rest' := h
      exact absurd (hfirst a) (hrest' (f a) rfl)
    | some b =>
      obtain ⟨hline, hrest⟩ := List.cons.inj h
      exact ⟨congrArg some (hinj a b hline), hrest⟩

theorem symbolLines_append_inj {s s' : Symbol} {rest rest' : List (List Char)}
    (h : symbolLines s ++ rest = symbolLines s' ++ rest') : s = s' ∧ rest = rest' := by
  obtain ⟨name, address, home, isGlobal⟩ := s
  obtain ⟨name', address', home', isGlobal'⟩ := s'
  rw [symbolLines, symbolLines, List.append_assoc, List.append_assoc] at h
  have hbody := List.append_cancel_left h
  simp only [symbolBody, List.append_assoc] at hbody
  obtain ⟨hname, hbody⟩ := List.cons.inj hbody
  obtain rfl : name = name' := quoted_inj (line_inj hname)
  -- behind the address comes the section, or the line behind that
  obtain ⟨rfl, hbody⟩ := optional_append_inj (c := 'a') (fun _ _ h => number_inj (line_inj h))
    (fun _ => rfl) (by cases home <;> simp [line]) (by cases home' <;> simp [line]) hbody
  obtain ⟨rfl, hbody⟩ := optional_append_inj (c := 's') (fun _ _ h => name_inj (line_inj h))
    (fun _ => rfl) (by simp [line]) (by simp [line]) hbody
  obtain ⟨hglobal, hrest⟩ := List.cons.inj hbody
  obtain rfl : isGlobal = isGlobal' := flag_inj (line_inj hglobal)
  exact ⟨rfl, hrest⟩

theorem relocationLines_append_inj {r r' : Relocation} {rest rest' : List (List Char)}
    (h : relocationLines r ++ rest = relocationLines r' ++ rest') : r = r' ∧ rest = rest' := by
  obtain ⟨address, symbol⟩ := r
  obtain ⟨address', symbol'⟩ := r'
  rw [relocationLines, relocationLines, List.append_assoc, List.append_assoc] at h
  have hbody := List.append_cancel_left h
  obtain ⟨haddress, hbody⟩ := List.cons.inj hbody
  obtain ⟨hsymbol, hrest⟩ := List.cons.inj hbody
  obtain rfl : address = address' := number_inj (line_inj haddress)
  obtain rfl : symbol = symbol' := quoted_inj (line_inj hsymbol)
  exact ⟨rfl, hrest⟩

theorem relocations_inj {rs rs' : List Relocation}
    (h : rs.flatMap relocationLines = rs'.flatMap relocationLines) : rs = rs' := by
  induction rs generalizing rs' with
  | nil =>
    cases rs' with
    | nil => rfl
    | cons r' rs' => simp [relocationLines] at h
  | cons r rs ih =>
    cases rs' with
    | nil => simp [relocationLines] at h
    | cons r' rs' =>
      obtain ⟨rfl, hrest⟩ := relocationLines_append_inj h
      rw [ih hrest]

/-- Behind the last symbol comes the header of a relocation, or the end. -/
theorem symbolLines_ne {s : Symbol} {rest : List (List Char)} {rs : List Relocation} :
    symbolLines s ++ rest ≠ rs.flatMap relocationLines := by
  intro h
  cases rs with
  | nil => simp [symbolLines] at h
  | cons r rs =>
    have hheader : "[[symbols]]".toList = "[[relocations]]".toList :=
      (List.cons.inj (List.cons.inj h).2).1
    exact absurd hheader (by decide)

theorem tables_inj {ss ss' : List Symbol} {rs rs' : List Relocation}
    (h : ss.flatMap symbolLines ++ rs.flatMap relocationLines =
      ss'.flatMap symbolLines ++ rs'.flatMap relocationLines) : ss = ss' ∧ rs = rs' := by
  induction ss generalizing ss' with
  | nil =>
    cases ss' with
    | nil => exact ⟨rfl, relocations_inj h⟩
    | cons s' ss' =>
      rw [List.flatMap_cons, List.append_assoc] at h
      exact absurd h.symm symbolLines_ne
  | cons s ss ih =>
    rw [List.flatMap_cons, List.append_assoc] at h
    cases ss' with
    | nil => exact absurd h symbolLines_ne
    | cons s' ss' =>
      rw [List.flatMap_cons, List.append_assoc] at h
      obtain ⟨rfl, hrest⟩ := symbolLines_append_inj h
      obtain ⟨rfl, rfl⟩ := ih hrest
      exact ⟨rfl, rfl⟩

theorem lines_inj {m m' : Module} (h : lines m = lines m') :
    m.textBase = m'.textBase ∧ m.dataBase = m'.dataBase ∧
      m.symbols.symbols = m'.symbols.symbols ∧ m.relocations = m'.relocations := by
  obtain ⟨htext, h⟩ := List.cons.inj h
  obtain ⟨hdata, h⟩ := List.cons.inj h
  exact ⟨number_inj (line_inj htext), number_inj (line_inj hdata), tables_inj h⟩

end SymbolFile

/-- The symbol file of a module that was assembled loses nothing but the bytes: the bases, the
symbols and the relocations can be read off it. -/
theorem symbolFile_assemble (source source' : String) (settings settings' : Settings) :
    ∃ a a', assemble source settings = .ok a ∧ assemble source' settings' = .ok a' ∧
      (a.module.symbolFile = a'.module.symbolFile →
        a.module.textBase = a'.module.textBase ∧ a.module.dataBase = a'.module.dataBase ∧
          a.module.symbols.symbols = a'.module.symbols.symbols ∧
          a.module.relocations = a'.module.relocations) := by
  obtain ⟨a, ha⟩ := exists_assembly source settings
  obtain ⟨a', ha'⟩ := exists_assembly source' settings'
  refine ⟨a, a', ha, ha', fun h => SymbolFile.lines_inj ?_⟩
  have htext : SymbolFile.ofLines (SymbolFile.lines a.module) =
      SymbolFile.ofLines (SymbolFile.lines a'.module) := by
    rw [← SymbolFile.toList_symbolFile, ← SymbolFile.toList_symbolFile, h]
  have hpieces := congrArg Text.pieces htext
  rw [SymbolFile.pieces_ofLines (SymbolFile.feed_not_mem_lines (named_module ha)),
    SymbolFile.pieces_ofLines (SymbolFile.feed_not_mem_lines (named_module ha'))] at hpieces
  exact List.append_cancel_right hpieces

/-- Two sources with different instructions and the same names: a label, a constant, an exported name
and one that is waited for. -/
theorem same_symbolFile :
    ∃ a a', assemble "main: j far\nk = 5\n.globl out" {} = .ok a ∧
      assemble ".globl out\nmain: jal far + 4 # later\nk = 2 + 3" {} = .ok a' ∧
      a.module.text ≠ a'.module.text ∧ a.module.symbolFile = a'.module.symbolFile ∧
      a.module.symbols.symbols = a'.module.symbols.symbols ∧
      a.module.relocations = a'.module.relocations := by
  obtain ⟨a, a', ha, ha', hlossless⟩ := symbolFile_assemble "main: j far\nk = 5\n.globl out"
    ".globl out\nmain: jal far + 4 # later\nk = 2 + 3" {} {}
  have htext : (assemble "main: j far\nk = 5\n.globl out" {}).toOption.map (·.module.text) ≠
      (assemble ".globl out\nmain: jal far + 4 # later\nk = 2 + 3" {}).toOption.map
        (·.module.text) := by decide +kernel
  have hfile : (assemble "main: j far\nk = 5\n.globl out" {}).toOption.map (·.module.symbolFile) =
      (assemble ".globl out\nmain: jal far + 4 # later\nk = 2 + 3" {}).toOption.map
        (·.module.symbolFile) := by decide +kernel
  rw [ha, ha'] at htext hfile
  have hsame := hlossless (Option.some.inj hfile)
  exact ⟨a, a', ha, ha', fun h => htext (congrArg some h), Option.some.inj hfile, hsame.2.2⟩

end Mips
