import Mips.Proofs.Disassembly

/-!
# Literals stand for their characters

A literal is written between quotes, with a backslash before what would end it or the line. It is
read back whatever it holds: the first quote stops the search for a label, no line feed cuts the
line, and inside the quotes neither `#` nor a comma means anything. So every string can be put into
a section, and every character into a word.

    .ascii "a:b\n","#"      a : b ⏎ #
           ▲                one argument for each string
           no label is looked for from here on
-/

namespace Mips

namespace Literal

/-! ### Writing literals -/

/-- How a character is written in a literal. -/
def escape : Char → List Char
  | '\n' => ['\\', 'n']
  | '\t' => ['\\', 't']
  | '\r' => ['\\', 'r']
  | '\x00' => ['\\', '0']
  | '\\' => ['\\', '\\']
  | '"' => ['\\', '"']
  | '\x27' => ['\\', '\x27']
  | c => [c]

/-- The characters of a string literal. -/
def quoted (cs : List Char) : List Char := '"' :: (cs.flatMap escape ++ ['"'])

/-- The string literal for `s`. -/
def ofString (s : String) : String := String.ofList (quoted s.toList)

/-- The character literal for `c`. -/
def ofChar (c : Char) : String := String.ofList ('\x27' :: (escape c ++ ['\x27']))

/-- A character is written as itself or as a backslash and a letter that stands for it. -/
theorem escape_cases (c : Char) :
    (∃ e, escape c = ['\\', e] ∧ Token.unescape? e = some c ∧ e ≠ '\n') ∨
      escape c = [c] ∧ c ≠ '\\' ∧ c ≠ '"' ∧ c ≠ '\x27' ∧ c ≠ '\n' := by
  unfold escape
  split
  · exact Or.inl ⟨_, rfl, rfl, by decide⟩
  · exact Or.inl ⟨_, rfl, rfl, by decide⟩
  · exact Or.inl ⟨_, rfl, rfl, by decide⟩
  · exact Or.inl ⟨_, rfl, rfl, by decide⟩
  · exact Or.inl ⟨_, rfl, rfl, by decide⟩
  · exact Or.inl ⟨_, rfl, rfl, by decide⟩
  · exact Or.inl ⟨_, rfl, rfl, by decide⟩
  · next hfeed _ _ _ hbackslash hquote hapostrophe =>
    exact Or.inr ⟨rfl, hbackslash, hquote, hapostrophe, hfeed⟩

theorem feed_not_mem_escape (c : Char) : '\n' ∉ escape c := by
  rcases escape_cases c with ⟨e, hescape, -, hfeed⟩ | ⟨hescape, -, -, -, hfeed⟩
  · simp [hescape, Ne.symm hfeed]
  · simp [hescape, Ne.symm hfeed]

theorem feed_not_mem_quoted (cs : List Char) : '\n' ∉ quoted cs := by
  intro hmem
  rcases List.mem_cons.1 hmem with heq | hmem
  · exact absurd heq (by decide)
  · rcases List.mem_append.1 hmem with hmem | hmem
    · obtain ⟨c, -, hc⟩ := List.mem_flatMap.1 hmem
      exact feed_not_mem_escape c hc
    · exact absurd (List.mem_singleton.1 hmem) (by decide)

/-! ### Reading them back -/

theorem stringTail_escape (c : Char) (tail : List Char) :
    Token.stringTail (escape c ++ tail) =
      (Token.stringTail tail).map fun (cs, n) => (c :: cs, n + (escape c).length) := by
  rcases escape_cases c with ⟨e, hescape, hmeans, -⟩ | ⟨hescape, hbackslash, hquote, -⟩
  · rw [hescape, List.cons_append, List.singleton_append, Token.stringTail, hmeans]
    rfl
  · rw [hescape, List.singleton_append, Token.stringTail, if_neg hquote]
    · rfl
    · intro heq
      exact absurd heq hbackslash
    · intro e rest heq
      exact absurd heq hbackslash

/-- A string literal ends at its closing quote and holds the characters it was written for. -/
theorem stringTail_quoted (cs rest : List Char) :
    Token.stringTail (cs.flatMap escape ++ '"' :: rest) =
      .ok (cs, (cs.flatMap escape).length + 1) := by
  induction cs with
  | nil => rfl
  | cons c cs ih =>
    rw [List.flatMap_cons, List.append_assoc, stringTail_escape, ih, List.length_append]
    simp only [Except.map, Except.ok.injEq, Prod.mk.injEq, true_and]
    omega

theorem characterTail_escape (c : Char) (rest : List Char) :
    Token.characterTail (escape c ++ '\x27' :: rest) = .ok (c, (escape c).length + 1) := by
  rcases escape_cases c with ⟨e, hescape, hmeans, -⟩ | ⟨hescape, hbackslash, -, hapostrophe, -⟩
  · rw [hescape, List.cons_append, List.singleton_append, Token.characterTail, hmeans]
    rfl
  · rw [hescape, List.singleton_append, Token.characterTail, if_neg hapostrophe]
    · rfl
    · intro heq
      exact absurd heq hbackslash
    · intro e rest heq
      exact absurd heq hbackslash

/-- The token of a string literal. -/
def token (cs : List Char) : Token := ⟨.string (String.ofList cs), String.ofList (quoted cs)⟩

theorem scan_quoted (cs rest : List Char) :
    Token.scan (quoted cs ++ rest) = (Token.scan rest).map (token cs :: ·) := by
  have hlexeme : Token.lexeme '"' (cs.flatMap escape ++ ['"'] ++ rest) =
      .ok (.string (String.ofList cs), (cs.flatMap escape ++ ['"']).length) := by
    have htail := stringTail_quoted cs rest
    have hstring : Token.lexeme '"' (cs.flatMap escape ++ '"' :: rest) =
        (Token.stringTail (cs.flatMap escape ++ '"' :: rest)).map
          fun (cs, n) => (.string (String.ofList cs), n) := rfl
    rw [List.append_assoc, List.singleton_append, hstring, htail, List.length_append]
    rfl
  rw [quoted, List.cons_append, Token.scan_cons (by decide) (by decide) hlexeme, List.drop_left,
    List.take_left]
  rfl

/-- String literals with commas between them are read one by one. -/
theorem scan_intercalate (strings : List (List Char)) :
    Token.scan (List.intercalate [','] (strings.map quoted)) =
      .ok (List.intercalate [⟨.comma, ","⟩] (strings.map fun cs => [token cs])) := by
  induction strings with
  | nil => exact Line.scan_nil
  | cons cs strings ih =>
    cases strings with
    | nil =>
      have hlast := scan_quoted cs []
      rw [List.append_nil, Line.scan_nil] at hlast
      simpa [Except.map] using hlast
    | cons cs' strings =>
      simp only [List.map_cons, List.intercalate_cons_cons, List.append_assoc,
        List.singleton_append] at ih ⊢
      have hcomma : Token.lexeme ',' (List.intercalate [','] (quoted cs' :: strings.map quoted)) =
          .ok (.comma, 0) := rfl
      rw [scan_quoted, Token.scan_cons (by decide) (by decide) hcomma, List.drop_zero, ih]
      rfl

theorem scan_ofChar (c : Char) :
    Token.scan (ofChar c).toList = .ok [⟨.number (BitVec.ofNat 32 c.toNat), ofChar c⟩] := by
  have hlexeme : Token.lexeme '\x27' (escape c ++ ['\x27']) =
      .ok (.number (BitVec.ofNat 32 c.toNat), (escape c ++ ['\x27']).length) := by
    have hcharacter : Token.lexeme '\x27' (escape c ++ ['\x27']) =
        (Token.characterTail (escape c ++ ['\x27'])).map
          fun tail => (.number (BitVec.ofNat 32 tail.1.toNat), tail.2) := rfl
    rw [hcharacter, characterTail_escape, List.length_append]
    rfl
  rw [ofChar, String.toList_ofList, Token.scan_cons (by decide) (by decide) hlexeme,
    List.drop_length, List.take_length, Line.scan_nil]
  rfl

end Literal

/-! ### The line of a directive -/

namespace Line

/-- A directive whose arguments start with a quote has no label before it. -/
theorem read_directive {c quote : Char} {cs rest : List Char} {args : List Token}
    (hc : isNameStart c = true) (hcs : cs.all isNameChar = true)
    (hquote : stopsLabel quote = true) (hcolon : quote ≠ ':')
    (hscan : Token.scan (quote :: rest) = .ok args) (n : Nat) :
    read n ('.' :: c :: cs ++ ' ' :: quote :: rest) =
      (some ⟨n, none, some (.directive (String.ofList (c :: cs)) args)⟩, []) := by
  have hname : ∀ x ∈ cs, isNameChar x = true := List.all_eq_true.1 hcs
  have hstop : ('.' :: c :: cs ++ ' ' :: quote :: rest).dropWhile (!stopsLabel ·) =
      quote :: rest := by
    have hbefore : ∀ x ∈ '.' :: c :: cs ++ [' '], (!stopsLabel x) = true := by
      intro x hx
      simp only [List.cons_append, List.mem_cons, List.mem_append, List.not_mem_nil, or_false] at hx
      rcases hx with rfl | rfl | hx | rfl
      · decide
      · simp [stopsLabel_of_isNameChar (isNameChar_of_isNameStart hc)]
      · simp [stopsLabel_of_isNameChar (hname x hx)]
      · decide
    rw [List.append_cons, List.dropWhile_append_of_pos hbefore]
    simp [hquote]
  have hlabel : splitLabel ('.' :: c :: cs ++ ' ' :: quote :: rest) =
      (none, '.' :: c :: cs ++ ' ' :: quote :: rest) := by
    unfold splitLabel
    rw [hstop]
    split
    · next heq => exact absurd (List.cons.inj heq).1 hcolon
    · rfl
  have hwhole : Token.scan ('.' :: c :: cs ++ ' ' :: quote :: rest) =
      .ok (⟨.directive (String.ofList (c :: cs)), String.ofList ('.' :: c :: cs)⟩ :: args) := by
    have happart : Token.Apart (' ' :: quote :: rest) := by
      rintro x hx
      rw [← Option.some.inj hx]
      decide
    rw [(Token.Reads.directive hc hname).scan _ happart, Token.scan_blank, hscan]
    rfl
  simp only [read, hlabel, legalLabel, hwhole, statement?]

end Line

/-! ### A source of one directive -/

/-- The directive that chooses a section. -/
def Section.keyword : Section → String
  | .text => "text"
  | .data => "data"

/-- The source that has `line` in a section. -/
def Section.source (place : Section) (line : String) : String :=
  "." ++ place.keyword ++ "\n" ++ line

/-- The lines of such a source, where `line` is the directive `name`. -/
def Section.lines (place : Section) (name : String) (args : List Token) : List Line :=
  [⟨1, none, some (.directive place.keyword [])⟩, ⟨2, none, some (.directive name args)⟩]

/-- Assembling `source` gives the bytes in one section, and nothing else. -/
def Emits (settings : Settings) (source : String) (place : Section) (bytes : List UInt8) : Prop :=
  ∃ a, assemble source settings = .ok a ∧ a.diagnostics = [] ∧
    (∀ s, (a.module.bytes s).toList = if s = place then bytes else []) ∧
    a.module.symbols = .empty ∧ a.module.relocations = []

theorem Source.read_section {line name : String} {args : List Token} (hfeed : '\n' ∉ line.toList)
    (hread : Line.read 2 line.toList = (some ⟨2, none, some (.directive name args)⟩, []))
    (place : Section) :
    (read (place.source line)).lines = place.lines name args ∧
      (read (place.source line)).diagnostics = [] := by
  have hne : line.toList ≠ [] := by
    intro hnil
    rw [hnil, Line.read_nil] at hread
    simp at hread
  have htext : (place.source line).toList =
      ('.' :: place.keyword.toList) ++ '\n' :: line.toList := by
    simp [Section.source]
  have hfirst : '\n' ∉ '.' :: place.keyword.toList := by cases place <;> decide
  have hchoose : Line.read 1 (Text.dropReturn ('.' :: place.keyword.toList)) =
      (some ⟨1, none, some (.directive place.keyword [])⟩, []) := by
    cases place <;> decide +kernel
  have hlines : Text.lines (place.source line).toList =
      [Text.dropReturn ('.' :: place.keyword.toList), line.toList] := by
    rw [htext, Text.lines_feed hfirst, Text.lines_of_not_mem hfeed, if_neg hne]
  rw [lines_read, diagnostics_read, hlines]
  simp only [linesFrom, reportFrom, hchoose, hread]
  exact ⟨rfl, rfl⟩

theorem Directive.read_keyword (symbols : SymbolTable) (address : Word) (place : Section) :
    read symbols address place.keyword [] = (some (.choose place), []) := by
  cases place <;> rfl

section

variable {settings : Settings} {place : Section} {name : String} {args : List Token}
  {bytes : List UInt8}

theorem Listing.ofLines_section
    (hread : Directive.read .empty (settings.base place) name args = (some (.data bytes), []))
    (hroom : (settings.base place).toNat + bytes.length ≤ 0xffffffff) :
    ofLines settings (place.lines name args) =
      ⟨[⟨⟨1, none, some (.directive place.keyword [])⟩, .text, settings.textBase,
          .directive (.choose place)⟩,
        ⟨⟨2, none, some (.directive name args)⟩, place, settings.base place,
          .directive (.data bytes)⟩], .empty⟩ := by
  have hstart : Row.nextAddress settings [] = settings.textBase := BitVec.add_zero _
  have hempty : Row.hasRoom settings [] 0 = true := by
    have hlt := settings.textBase.isLt
    refine decide_eq_true ?_
    change settings.textBase.toNat ≤ 0xffffffff
    omega
  have hfirst : empty.add settings ⟨1, none, some (.directive place.keyword [])⟩ =
      ⟨[⟨⟨1, none, some (.directive place.keyword [])⟩, .text, settings.textBase,
        .directive (.choose place)⟩], .empty⟩ := by
    simp only [add, row, known, empty, labelled, plan, Directive.read_keyword, Directive.bytes,
      List.length_nil, hempty, hstart, if_true, namesAfter]
    rfl
  rw [ofLines, Section.lines, List.foldl_cons, List.foldl_cons, List.foldl_nil, hfirst]
  generalize hrow : (⟨⟨1, none, some (.directive place.keyword [])⟩, .text, settings.textBase,
    .directive (.choose place)⟩ : Row) = first
  have hactive : Row.active [first] = place := by rw [← hrow]; rfl
  have hsize : ∀ s, Row.sizeIn s [first] = 0 := by
    intro s
    rw [← hrow]
    cases s <;> rfl
  have haddress : Row.nextAddress settings [first] = settings.base place := by
    rw [Row.nextAddress, hactive, hsize]
    exact BitVec.add_zero _
  have hfits : Row.hasRoom settings [first] bytes.length = true := by
    rw [Row.hasRoom, hactive, hsize]
    exact decide_eq_true hroom
  simp only [add, row, known, labelled, plan, hactive, haddress, hread, Directive.bytes, hfits,
    if_true, namesAfter]
  rfl

/-- Nothing is wrong with the directive where it stands. -/
theorem Layout.problems_section
    (hread : Directive.read .empty (settings.base place) name args = (some (.data bytes), []))
    (hroom : (settings.base place).toNat + bytes.length ≤ 0xffffffff) :
    (placeLines settings.isa (.start settings) (place.lines name args)).2.flatMap
      (·.diagnostics) = [] := by
  have hempty : (Image.start settings).current.hasRoom 0 = true := by
    have hlt := settings.textBase.isLt
    refine decide_eq_true ?_
    change settings.textBase.toNat ≤ 0xffffffff
    omega
  generalize himage : (Image.start settings).execute (.choose place) = image
  have hsymbols : image.symbols = .empty := by rw [← himage]; rfl
  have hcurrent : image.current = { base := settings.base place } := by
    rw [← himage]
    cases place <;> rfl
  have haddress : image.address = settings.base place := by
    rw [Image.address, hcurrent]
    exact BitVec.add_zero _
  have hfits : image.current.hasRoom bytes.length = true := by
    rw [hcurrent]
    exact decide_eq_true hroom
  simp only [Section.lines, placeLines, placeLine, bindLabel, placeStatement, placeDirective,
    Directive.read_keyword, Image.sizeOf, hempty, himage, hsymbols, haddress, hread, hfits,
    if_true]
  rfl

/-- A data directive that is alone in its section gives its bytes. -/
theorem emits_of_read {line : String} (hfeed : '\n' ∉ line.toList)
    (hline : Line.read 2 line.toList = (some ⟨2, none, some (.directive name args)⟩, []))
    (hread : Directive.read .empty (settings.base place) name args = (some (.data bytes), []))
    (hroom : (settings.base place).toNat + bytes.length ≤ 0xffffffff) :
    Emits settings (place.source line) place bytes := by
  obtain ⟨hlines, hreport⟩ := Source.read_section hfeed hline place
  have hlisting := Listing.ofLines_section hread hroom
  have hplaced := Layout.problems_section hread hroom
  obtain ⟨trace, hassemble⟩ := assemble_eq (place.source line) settings rfl
  rw [hlines, hreport, hplaced, hlisting] at hassemble
  refine ⟨_, hassemble, ?_, ?_, rfl, rfl⟩
  · simp [Row.realized, Realized.diagnostics, Assembly.undefinedSymbols, Assembly.references,
      Diagnostic.byLine]
  · intro s
    rw [Listing.bytes_module]
    cases s <;> cases place <;> simp [Row.bytesIn, Row.bytes, Plan.bytes, Directive.bytes]

end

/-! ### Strings and characters in a section -/

namespace Literal

/-- The directive for strings. -/
def keyword (terminated : Bool) : String := if terminated then "asciiz" else "ascii"

/-- The line that puts strings into a section. -/
def stringLine (terminated : Bool) (strings : List String) : String :=
  "." ++ keyword terminated ++ " " ++ ",".intercalate (strings.map ofString)

/-- The bytes of strings, with a zero behind each if `terminated`. -/
def encoded (terminated : Bool) (strings : List String) : List UInt8 :=
  strings.flatMap fun s => s.toUTF8.data.toList ++ if terminated then [0] else []

/-- The line that puts a character into a section as a word. -/
def charLine (c : Char) : String := ".word " ++ ofChar c

theorem toList_stringLine (terminated : Bool) (strings : List String) :
    (stringLine terminated strings).toList = '.' :: (keyword terminated).toList ++
      ' ' :: List.intercalate [','] ((strings.map String.toList).map quoted) := by
  have hquoted : (strings.map ofString).map String.toList =
      (strings.map String.toList).map quoted := by
    rw [List.map_map, List.map_map]
    refine List.map_congr_left fun s _ => ?_
    exact String.toList_ofList
  rw [stringLine, String.toList_append, String.toList_intercalate, hquoted]
  simp

theorem feed_not_mem_intercalate (css : List (List Char)) :
    '\n' ∉ List.intercalate [','] (css.map quoted) := by
  induction css with
  | nil => simp
  | cons cs css ih =>
    cases css with
    | nil => simpa using feed_not_mem_quoted cs
    | cons cs' css =>
      simp only [List.map_cons, List.intercalate_cons_cons] at ih ⊢
      simp [feed_not_mem_quoted, ih]

/-- The arguments of the directive are the literals. -/
theorem read_strings (symbols : SymbolTable) (address : Word) (terminated : Bool)
    {strings : List String} (hne : strings ≠ []) :
    Directive.read symbols address (keyword terminated) (List.intercalate [⟨.comma, ","⟩]
        ((strings.map String.toList).map fun cs => [token cs])) =
      (some (.data (encoded terminated strings)), []) := by
  have hsplit : Line.splitArgs (List.intercalate [⟨.comma, ","⟩]
      ((strings.map String.toList).map fun cs => [token cs])) =
        (strings.map String.toList).map fun cs => [token cs] := by
    refine Line.splitArgs_intercalate rfl fun arg harg => ?_
    obtain ⟨cs, -, rfl⟩ := List.mem_map.1 harg
    simp [token]
  have hsome : ((strings.map String.toList).map fun cs => [token cs]).isEmpty = false := by
    simpa using hne
  have hparts : ∀ name, Directive.ofParts (((strings.map String.toList).map fun cs =>
      [token cs]).map (Directive.dataString name terminated)) =
        (some (.data (encoded terminated strings)), []) := by
    intro name
    simp [Directive.ofParts, Directive.dataString, token, encoded, List.flatMap_map]
  cases terminated with
  | true => simp only [Directive.read, keyword, if_true, hsplit, hsome, hparts]; rfl
  | false => simp only [Directive.read, keyword, hsplit, hsome, hparts]; rfl

theorem read_word (symbols : SymbolTable) (address v : Word) (text : String) :
    Directive.read symbols address "word" [⟨.number v, text⟩] = (some (.data v.bytes), []) := by
  have hlow : v.low 32 = v := Word.low_of_lt v.isLt
  have hfits : v.fits 32 = true := by simp [Word.fits, Word.fitsSigned]
  have hvalue : Directive.dataValue symbols address "word" 4 [⟨.number v, text⟩] =
      (v.bytes, []) := by
    simp only [Directive.dataValue, Expr.evalTokens_number, Directive.valueBytes, hlow, hfits,
      if_true]
    rfl
  have hread : Directive.read symbols address "word" [⟨.number v, text⟩] =
      Directive.ofParts [Directive.dataValue symbols address "word" 4 [⟨.number v, text⟩]] := rfl
  rw [hread, hvalue]
  simp [Directive.ofParts]

theorem byteAt_ofNat {n : Nat} (hn : n < 0x100000000) (lo : Nat) :
    Word.byteAt (BitVec.ofNat 32 n) lo = UInt8.ofNat (n >>> lo) := by
  rw [Word.byteAt_eq, BitVec.toNat_ofNat, Nat.mod_eq_of_lt hn]

/-! ### Lines with literals -/

theorem read_stringLine (n : Nat) (terminated : Bool) {strings : List String}
    (hne : strings ≠ []) :
    Line.read n (stringLine terminated strings).toList =
      (some ⟨n, none, some (.directive (keyword terminated) (List.intercalate [⟨.comma, ","⟩]
        ((strings.map String.toList).map fun cs => [token cs])))⟩, []) := by
  obtain ⟨tail, htail⟩ : ∃ tail, List.intercalate [','] ((strings.map String.toList).map quoted) =
      '"' :: tail := by
    rcases strings with _ | ⟨s, _ | ⟨s', strings⟩⟩
    · exact absurd rfl hne
    · exact ⟨s.toList.flatMap escape ++ ['"'], by simp [quoted]⟩
    · simp only [List.map_cons, List.intercalate_cons_cons, quoted, List.cons_append]
      exact ⟨_, rfl⟩
  have hscan := scan_intercalate (strings.map String.toList)
  rw [htail] at hscan
  rw [toList_stringLine, htail]
  cases terminated with
  | true => exact Line.read_directive (by decide) (by decide) (by decide) (by decide) hscan n
  | false => exact Line.read_directive (by decide) (by decide) (by decide) (by decide) hscan n

theorem feed_not_mem_stringLine (terminated : Bool) (strings : List String) :
    '\n' ∉ (stringLine terminated strings).toList := by
  have hkeyword : '\n' ∉ (keyword terminated).toList := by cases terminated <;> decide
  have hstrings := feed_not_mem_intercalate (strings.map String.toList)
  rw [toList_stringLine]
  simpa [hkeyword] using hstrings

theorem read_charLine (n : Nat) (c : Char) :
    Line.read n (charLine c).toList = (some ⟨n, none, some (.directive "word"
      [⟨.number (BitVec.ofNat 32 c.toNat), ofChar c⟩])⟩, []) := by
  have hscan := scan_ofChar c
  have htext : (charLine c).toList =
      '.' :: "word".toList ++ ' ' :: '\x27' :: (escape c ++ ['\x27']) := by
    simp [charLine, ofChar]
  rw [ofChar, String.toList_ofList] at hscan
  rw [htext]
  exact Line.read_directive (by decide) (by decide) (by decide) (by decide) hscan n

theorem feed_not_mem_charLine (c : Char) : '\n' ∉ (charLine c).toList := by
  simp [charLine, ofChar, feed_not_mem_escape]

end Literal

/-- Strings and characters come through as they were written: strings as their UTF-8 bytes one
behind the other, and a character as its number in a word with the highest byte first. -/
theorem literals_assemble (settings : Settings) (place : Section) :
    (∀ (terminated : Bool) (strings : List String), strings ≠ [] →
      (settings.base place).toNat + (Literal.encoded terminated strings).length ≤ 0xffffffff →
      Emits settings (place.source (Literal.stringLine terminated strings)) place
        (Literal.encoded terminated strings)) ∧
    ∀ c : Char, (settings.base place).toNat + 4 ≤ 0xffffffff →
      Emits settings (place.source (Literal.charLine c)) place
        [UInt8.ofNat (c.toNat >>> 24), UInt8.ofNat (c.toNat >>> 16), UInt8.ofNat (c.toNat >>> 8),
          UInt8.ofNat c.toNat] := by
  refine ⟨fun terminated strings hne hroom => ?_, fun c hroom => ?_⟩
  · exact emits_of_read (Literal.feed_not_mem_stringLine terminated strings)
      (Literal.read_stringLine 2 terminated hne) (Literal.read_strings _ _ terminated hne) hroom
  · have hn : c.toNat < 0x100000000 := c.val.toBitVec.isLt
    have hread := Literal.read_word .empty (settings.base place) (BitVec.ofNat 32 c.toNat)
      (Literal.ofChar c)
    simp only [Word.bytes, Literal.byteAt_ofNat hn, Nat.shiftRight_zero] at hread
    exact emits_of_read (Literal.feed_not_mem_charLine c) (Literal.read_charLine 2 c) hread hroom

/-- The marks of labels, comments, arguments and literals mean nothing inside a literal. -/
theorem marks_emitted :
    Emits {} ".data\n.asciiz \"a:#,\\n\\\"\",\"\\\\\"" .data
      [0x61, 0x3a, 0x23, 0x2c, 0x0a, 0x22, 0, 0x5c, 0] ∧
    Emits {} ".data\n.word '\\''" .data [0, 0, 0, 0x27] := by
  obtain ⟨hstrings, hchars⟩ := literals_assemble {} .data
  have htext : Section.data.source (Literal.stringLine true ["a:#,\n\"", "\\"]) =
      ".data\n.asciiz \"a:#,\\n\\\"\",\"\\\\\"" := by decide +kernel
  have hbytes : Literal.encoded true ["a:#,\n\"", "\\"] =
      [0x61, 0x3a, 0x23, 0x2c, 0x0a, 0x22, 0, 0x5c, 0] := by decide +kernel
  have hchar : Section.data.source (Literal.charLine '\x27') = ".data\n.word '\\''" := by
    decide +kernel
  refine ⟨?_, hchar ▸ hchars '\x27' (by decide)⟩
  rw [← htext, ← hbytes]
  exact hstrings true _ (by decide) (by decide +kernel)

end Mips
