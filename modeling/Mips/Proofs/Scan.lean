import Mips.Source.Line

/-!
# Texts that are cut into given tokens

`Token.Reads cs tokens` says that the characters `cs` are cut into `tokens`, whatever comes behind
them that does not go on with a name. Names, registers, numbers and punctuation marks read so, and
their texts can be put behind each other. The digits that a number is written with read as that
number.
-/

namespace Mips

theorem isNameStart_of_isDigit {c : Char} (h : c.isDigit = true) : isNameStart c = false := by
  obtain ⟨hlow, hhigh⟩ := Char.isDigit_iff_toNat.1 h
  change 48 ≤ c.toNat at hlow
  change c.toNat ≤ 57 at hhigh
  have hdigits : ∀ d < 10, isNameStart (Char.ofNat (48 + d)) = false := by decide
  have hdigit := hdigits (c.toNat - 48) (by omega)
  rw [Nat.add_sub_cancel' hlow, Char.ofNat_toNat] at hdigit
  exact hdigit

theorem isNameChar_of_isNameStart {c : Char} (h : isNameStart c = true) : isNameChar c = true := by
  simp only [isNameStart, isNameChar, Char.isAlphanum, Bool.or_eq_true] at h ⊢
  exact h.imp_left Or.inl

namespace Token

/-! ### Digits -/

theorem digit?_digitChar {base d : Nat} (hbase : base ≤ 16) (hd : d < base) :
    digit? base (Nat.digitChar d) = some d := by
  have hdigit : ∀ d < 16, digit? 16 (Nat.digitChar d) = some d := by decide
  have hvalue := hdigit d (by omega)
  unfold digit? at hvalue ⊢
  rw [Option.filter_eq_some_iff] at hvalue ⊢
  exact ⟨hvalue.1, decide_eq_true hd⟩

theorem isNameChar_digitChar {d : Nat} (hd : d < 16) : isNameChar (Nat.digitChar d) = true := by
  have hname : ∀ d < 16, isNameChar (Nat.digitChar d) = true := by decide
  exact hname d hd

/-- The digits of a number are name characters. -/
theorem isNameChar_of_mem_toDigits {base : Nat} (hone : 1 < base) (hbase : base ≤ 16) :
    ∀ (n : Nat), ∀ c ∈ Nat.toDigits base n, isNameChar c = true := by
  intro n
  induction n using Nat.strongRecOn with
  | ind n ih =>
    intro c hc
    rw [Nat.toDigits_eq_if hone] at hc
    split at hc
    · next hlt =>
      rw [List.mem_singleton.1 hc]
      exact isNameChar_digitChar (by omega)
    · next hge =>
      rcases List.mem_append.1 hc with hc | hc
      · exact ih (n / base) (Nat.div_lt_self (by omega) hone) c hc
      · rw [List.mem_singleton.1 hc]
        have := Nat.mod_lt n (show 0 < base by omega)
        exact isNameChar_digitChar (by omega)

/-- Reading digit by digit gives the number back. -/
theorem foldlM_toDigits {base : Nat} (hone : 1 < base) (hbase : base ≤ 16) (n : Nat)
    (hn : n < 0x100000000) : (Nat.toDigits base n).foldlM (addDigit base) 0 = .ok n := by
  induction n using Nat.strongRecOn with
  | ind n ih =>
    rw [Nat.toDigits_eq_if hone]
    split
    · next hlt =>
      simp [List.foldlM, addDigit, digit?_digitChar hbase hlt, hn]
    · next hge =>
      have hdigit := digit?_digitChar hbase (Nat.mod_lt n (show 0 < base by omega))
      have hsum : n / base * base + n % base = n := by
        rw [Nat.mul_comm]
        exact Nat.div_add_mod n base
      have hless : n / base < n := Nat.div_lt_self (by omega) hone
      rw [List.foldlM_append, ih (n / base) hless (by omega)]
      simp [List.foldlM, addDigit, hdigit, hsum, hn, bind, Except.bind, pure, Except.pure]

theorem readNumber_toDigits {base : Nat} (hone : 1 < base) (hbase : base ≤ 16) (n : Nat)
    (hn : n < 0x100000000) :
    readNumber base (Nat.toDigits base n) = .ok (BitVec.ofNat 32 n) := by
  have hsome : (Nat.toDigits base n).isEmpty = false := by
    rw [List.isEmpty_eq_false_iff]
    exact Nat.toDigits_ne_nil
  rw [readNumber, hsome, foldlM_toDigits hone hbase n hn]
  rfl

/-! ### One token -/

theorem scan_step {c : Char} (hspace : isSpace c = false) (hcomment : c ≠ '#')
    (rest : List Char) :
    scan (c :: rest) =
      match lexeme c rest with
      | .error cause => .error cause
      | .ok (kind, n) =>
        (scan (rest.drop n)).map (⟨kind, String.ofList (c :: rest.take n)⟩ :: ·) := by
  have hdrop : (c :: rest).dropWhile isSpace = c :: rest := by simp [hspace]
  rw [scan]
  split
  · next hnil =>
    rw [hdrop] at hnil
    simp at hnil
  · next c' rest' hcons =>
    rw [hdrop] at hcons
    obtain ⟨rfl, rfl⟩ := List.cons.inj hcons
    exact if_neg hcomment

theorem scan_cons {c : Char} {rest : List Char} {kind : TokenKind} {n : Nat}
    (hspace : isSpace c = false) (hcomment : c ≠ '#') (h : lexeme c rest = .ok (kind, n)) :
    scan (c :: rest) =
      (scan (rest.drop n)).map (⟨kind, String.ofList (c :: rest.take n)⟩ :: ·) := by
  rw [scan_step hspace hcomment, h]

theorem scan_blank (rest : List Char) : scan (' ' :: rest) = scan rest := by
  rw [scan, scan]
  rfl

/-- Nothing that a name could go on with. -/
def Apart (rest : List Char) : Prop := ∀ c ∈ rest.head?, isNameChar c = false

theorem takeWhile_apart {cs rest : List Char} (h : ∀ c ∈ cs, isNameChar c = true)
    (hrest : Apart rest) : (cs ++ rest).takeWhile isNameChar = cs := by
  rw [List.takeWhile_append_of_pos h]
  cases rest with
  | nil => simp
  | cons c rest => simp [hrest c rfl]

/-- A character that starts a token, and ends no line and no label. -/
def Solid (c : Char) : Prop := isSpace c = false ∧ c ≠ '#' ∧ c ≠ '\n' ∧ c ≠ ':'

instance (c : Char) : Decidable (Solid c) := inferInstanceAs (Decidable (_ ∧ _))

theorem solid_of_isNameChar {c : Char} (h : isNameChar c = true) : Solid c := by
  have hne : ∀ x, isNameChar x = false → c ≠ x := by
    rintro x hx rfl
    simp [h] at hx
  refine ⟨?_, hne _ (by decide), hne _ (by decide), hne _ (by decide)⟩
  simp only [isSpace, Bool.or_eq_false_iff, beq_eq_false_iff_ne]
  exact ⟨⟨hne _ (by decide), hne _ (by decide)⟩, hne _ (by decide)⟩

/-- The characters `cs` are cut into `tokens`, and hold no end of a line or of a label. -/
structure Reads (cs : List Char) (tokens : List Token) : Prop where
  plain : ∀ c ∈ cs, c ≠ '\n' ∧ c ≠ ':'
  scan : ∀ rest, Apart rest → Token.scan (cs ++ rest) = (Token.scan rest).map (tokens ++ ·)

namespace Reads

theorem nil : Reads [] [] := by
  refine ⟨by simp, fun rest _ => ?_⟩
  rw [List.nil_append]
  cases Token.scan rest <;> rfl

variable {cs cs' : List Char} {tokens tokens' : List Token}

theorem map_append (tokens tokens' : List Token) (scanned : Except TokenError (List Token)) :
    (scanned.map (tokens' ++ ·)).map (tokens ++ ·) = scanned.map (tokens ++ tokens' ++ ·) := by
  cases scanned with
  | error cause => rfl
  | ok scanned => exact congrArg Except.ok (List.append_assoc ..).symm

/-- A text can be put behind another if it does not start like the rest of a name. -/
theorem append {c : Char} (h : Reads cs tokens) (h' : Reads (c :: cs') tokens')
    (hc : isNameChar c = false) : Reads (cs ++ c :: cs') (tokens ++ tokens') := by
  refine ⟨fun x hx => ?_, fun rest hrest => ?_⟩
  · rcases List.mem_append.1 hx with hx | hx
    · exact h.plain x hx
    · exact h'.plain x hx
  · have hapart : Apart (c :: cs' ++ rest) := by
      intro x hx
      rw [← Option.some.inj hx]
      exact hc
    rw [List.append_assoc, h.scan _ hapart, h'.scan rest hrest, map_append]

theorem blank (h : Reads cs tokens) : Reads (' ' :: cs) tokens := by
  refine ⟨fun x hx => ?_, fun rest hrest => ?_⟩
  · rcases List.mem_cons.1 hx with rfl | hx
    · decide
    · exact h.plain x hx
  · rw [List.cons_append, scan_blank, h.scan rest hrest]

/-- A punctuation mark can stand before any text. -/
theorem mark {c : Char} {kind : TokenKind} (h : Reads cs tokens) (hc : Solid c)
    (hlexeme : ∀ rest, lexeme c rest = .ok (kind, 0)) :
    Reads (c :: cs) (⟨kind, String.ofList [c]⟩ :: tokens) := by
  obtain ⟨hspace, hcomment, hplain⟩ := hc
  refine ⟨fun x hx => ?_, fun rest hrest => ?_⟩
  · rcases List.mem_cons.1 hx with rfl | hx
    · exact hplain
    · exact h.plain x hx
  · rw [List.cons_append, scan_cons hspace hcomment (hlexeme _), List.drop_zero, List.take_zero,
      h.scan rest hrest]
    exact map_append [_] tokens _

theorem comma (h : Reads cs tokens) : Reads (',' :: cs) (⟨.comma, ","⟩ :: tokens) :=
  h.mark (by decide) fun _ => rfl

theorem minus (h : Reads cs tokens) : Reads ('-' :: cs) (⟨.operator .sub, "-"⟩ :: tokens) :=
  h.mark (by decide) fun _ => rfl

theorem leftParen (h : Reads cs tokens) : Reads ('(' :: cs) (⟨.leftParen, "("⟩ :: tokens) :=
  h.mark (by decide) fun _ => rfl

theorem rightParen (h : Reads cs tokens) : Reads (')' :: cs) (⟨.rightParen, ")"⟩ :: tokens) :=
  h.mark (by decide) fun _ => rfl

/-- A token that takes in all the name characters behind its first one. -/
theorem word {c : Char} {kind : TokenKind} (hc : Solid c)
    (hcs : ∀ x ∈ cs, isNameChar x = true)
    (hlexeme : ∀ rest, Apart rest → lexeme c (cs ++ rest) = .ok (kind, cs.length)) :
    Reads (c :: cs) [⟨kind, String.ofList (c :: cs)⟩] := by
  obtain ⟨hspace, hcomment, hplain⟩ := hc
  refine ⟨fun x hx => ?_, fun rest hrest => ?_⟩
  · rcases List.mem_cons.1 hx with rfl | hx
    · exact hplain
    · exact (solid_of_isNameChar (hcs x hx)).2.2
  · rw [List.cons_append, scan_cons hspace hcomment (hlexeme rest hrest), List.drop_left,
      List.take_left]
    rfl

theorem name {c : Char} (hc : isNameStart c = true) (hcs : ∀ x ∈ cs, isNameChar x = true) :
    Reads (c :: cs) [⟨.name (String.ofList (c :: cs)), String.ofList (c :: cs)⟩] := by
  refine word (solid_of_isNameChar (isNameChar_of_isNameStart hc)) hcs fun rest hrest => ?_
  rw [lexeme, if_pos hc, takeWhile_apart hcs hrest]

theorem register (hne : cs ≠ []) (hcs : ∀ x ∈ cs, isNameChar x = true) :
    Reads ('$' :: cs) [⟨.register (String.ofList cs), String.ofList ('$' :: cs)⟩] := by
  refine word (by decide) hcs fun rest hrest => ?_
  have hlexeme : lexeme '$' (cs ++ rest) =
      if ((cs ++ rest).takeWhile isNameChar).isEmpty then .error .missingRegister
      else .ok (.register (String.ofList ((cs ++ rest).takeWhile isNameChar)),
        ((cs ++ rest).takeWhile isNameChar).length) := rfl
  rw [hlexeme, takeWhile_apart hcs hrest, if_neg (by simpa using hne)]

theorem directive {c : Char} (hc : isNameStart c = true) (hcs : ∀ x ∈ cs, isNameChar x = true) :
    Reads ('.' :: c :: cs)
      [⟨.directive (String.ofList (c :: cs)), String.ofList ('.' :: c :: cs)⟩] := by
  refine word (by decide) (fun x hx => ?_) fun rest hrest => ?_
  · rcases List.mem_cons.1 hx with rfl | hx
    · exact isNameChar_of_isNameStart hc
    · exact hcs x hx
  · have hlexeme : lexeme '.' (c :: cs ++ rest) = .ok (if isNameStart c then
        (.directive (String.ofList (c :: (cs ++ rest).takeWhile isNameChar)),
          ((cs ++ rest).takeWhile isNameChar).length + 1) else (.here, 0)) := rfl
    rw [hlexeme, if_pos hc, takeWhile_apart hcs hrest]
    rfl

/-! ### Numbers -/

theorem lexeme_digit {c : Char} (hc : c.isDigit = true) {rest digits : List Char} {base n : Nat}
    {v : Word} (hnumeral : numeral c rest = (base, digits, n))
    (hread : readNumber base digits = .ok v) : lexeme c rest = .ok (.number v, n) := by
  simp only [lexeme, isNameStart_of_isDigit hc, hc, hnumeral, hread]
  rfl

/-- A number in hexadecimal. -/
theorem hexadecimal {n : Nat} (hn : n < 0x100000000) :
    Reads ('0' :: 'x' :: Nat.toDigits 16 n)
      [⟨.number (BitVec.ofNat 32 n), String.ofList ('0' :: 'x' :: Nat.toDigits 16 n)⟩] := by
  have hdigits : ∀ c ∈ Nat.toDigits 16 n, isNameChar c = true :=
    isNameChar_of_mem_toDigits (by decide) (by decide) n
  refine word (by decide) (fun x hx => ?_) fun rest hrest => ?_
  · rcases List.mem_cons.1 hx with rfl | hx
    · decide
    · exact hdigits x hx
  · have hread : readNumber 16 (Nat.toDigits 16 n) = .ok (BitVec.ofNat 32 n) :=
      readNumber_toDigits (by decide) (by decide) n hn
    refine lexeme_digit (by decide) ?_ hread
    have hnumeral : numeral '0' ('x' :: (Nat.toDigits 16 n ++ rest)) =
        (16, (Nat.toDigits 16 n ++ rest).takeWhile isNameChar,
          ((Nat.toDigits 16 n ++ rest).takeWhile isNameChar).length + 1) := rfl
    rw [List.cons_append, hnumeral, takeWhile_apart hdigits hrest]
    rfl

theorem numeral_decimal {c : Char} {rest : List Char}
    (h : c = '0' → ∀ x ∈ rest.head?, x ∉ ['x', 'X', 'b', 'B']) :
    numeral c rest =
      (10, c :: rest.takeWhile isNameChar, (rest.takeWhile isNameChar).length) := by
  unfold numeral
  split
  all_goals first | rfl | exact absurd (by decide) (h rfl _ rfl)

theorem lexeme_decimal {n : Nat} (hn : n < 0x100000000) {c : Char} {cs rest : List Char}
    (hcs : Nat.toDigits 10 n = c :: cs) (hrest : Apart rest) :
    lexeme c (cs ++ rest) = .ok (.number (BitVec.ofNat 32 n), cs.length) := by
  have hdigits : ∀ x ∈ c :: cs, isNameChar x = true :=
    hcs ▸ isNameChar_of_mem_toDigits (by decide) (by decide) n
  have hten : ∀ x ∈ c :: cs, x.isDigit = true :=
    hcs ▸ fun x hx => Nat.isDigit_of_mem_toDigits (by decide) (by decide) hx
  have hread : readNumber 10 (c :: cs) = .ok (BitVec.ofNat 32 n) :=
    hcs ▸ readNumber_toDigits (by decide) (by decide) n hn
  refine lexeme_digit (hten c List.mem_cons_self) ?_ hread
  -- behind the first digit stands a digit, or nothing that a name goes on with
  rw [numeral_decimal, takeWhile_apart (fun x hx => hdigits x (List.mem_cons_of_mem c hx)) hrest]
  intro _ x hx hmark
  have hmarks : x.isDigit = false ∧ isNameChar x = true := by
    simp only [List.mem_cons, List.not_mem_nil, or_false] at hmark
    rcases hmark with rfl | rfl | rfl | rfl <;> decide
  obtain ⟨hnoDigit, hnameChar⟩ := hmarks
  cases cs with
  | nil => exact absurd (hrest x hx) (by simp [hnameChar])
  | cons y cs =>
    have hdigit := hten y (List.mem_cons_of_mem c List.mem_cons_self)
    rw [Option.some.inj hx, hnoDigit] at hdigit
    simp at hdigit

/-- A number in decimal. -/
theorem decimal {n : Nat} (hn : n < 0x100000000) :
    Reads (Nat.toDigits 10 n)
      [⟨.number (BitVec.ofNat 32 n), String.ofList (Nat.toDigits 10 n)⟩] := by
  have hdigits : ∀ c ∈ Nat.toDigits 10 n, isNameChar c = true :=
    isNameChar_of_mem_toDigits (by decide) (by decide) n
  cases hcs : Nat.toDigits 10 n with
  | nil => exact absurd hcs Nat.toDigits_ne_nil
  | cons c cs =>
    rw [hcs] at hdigits
    refine word (solid_of_isNameChar (hdigits c List.mem_cons_self))
      (fun x hx => hdigits x (List.mem_cons_of_mem c hx)) fun rest hrest => ?_
    exact lexeme_decimal hn hcs hrest

end Reads

end Token

namespace Line

/-! ### Lines of tokens -/

theorem stopsLabel_of_isNameChar {c : Char} (h : isNameChar c = true) : stopsLabel c = false := by
  have hne : ∀ x, isNameChar x = false → c ≠ x := by
    rintro x hx rfl
    simp [h] at hx
  simp only [stopsLabel, Bool.or_eq_false_iff, beq_eq_false_iff_ne]
  refine ⟨⟨⟨⟨⟨⟨⟨?_, ?_⟩, ?_⟩, ?_⟩, ?_⟩, ?_⟩, ?_⟩, ?_⟩ <;> exact hne _ (by decide)

theorem splitLabel_of_not_mem {text : List Char} (h : ':' ∉ text) :
    splitLabel text = (none, text) := by
  unfold splitLabel
  split
  · next rest hrest =>
    refine absurd ?_ h
    exact (List.dropWhile_sublist _).subset (hrest ▸ List.mem_cons_self)
  · rfl

/-- A name starts an instruction, unless a constant is defined by it. -/
theorem statement?_instruction (name nameText : String) {args : List Token}
    (hargs : ∀ t ∈ args.head?, t.kind ≠ .assign) :
    statement? (⟨.name name, nameText⟩ :: args) = .ok (some (.instruction name args)) := by
  rcases args with _ | ⟨⟨kind, text⟩, args⟩
  · rfl
  · have hkind := hargs _ rfl
    cases kind with
    | assign => exact absurd rfl hkind
    | _ => rfl

theorem read_of_scan {text : List Char} {name nameText : String} {args : List Token}
    (hscan : Token.scan (splitLabel text).2 = .ok (⟨.name name, nameText⟩ :: args))
    (hargs : ∀ t ∈ args.head?, t.kind ≠ .assign) (n : Nat) :
    read n text = (some ⟨n, (legalLabel (splitLabel text).1).1, some (.instruction name args)⟩,
      (legalLabel (splitLabel text).1).2) := by
  simp only [read, hscan, statement?_instruction name nameText hargs]

/-- A text that starts with a name is an instruction, unless a constant is defined by it. -/
theorem read_instruction {text : List Char} {name nameText : String} {args : List Token}
    (h : Token.Reads text (⟨.name name, nameText⟩ :: args))
    (hargs : ∀ t ∈ args, t.kind ≠ .assign) (n : Nat) :
    read n text = (some ⟨n, none, some (.instruction name args)⟩, []) := by
  have hlabel : splitLabel text = (none, text) :=
    splitLabel_of_not_mem fun hcolon => (h.plain _ hcolon).2 rfl
  have hscan : Token.scan (splitLabel text).2 = .ok (⟨.name name, nameText⟩ :: args) := by
    have hend := h.scan [] (by simp [Token.Apart])
    rw [List.append_nil] at hend
    rw [hlabel, hend, Token.scan]
    exact congrArg Except.ok (List.append_nil _)
  rw [read_of_scan hscan (fun t ht => hargs t (List.mem_of_mem_head? ht)), hlabel]
  rfl

/-- The arguments among tokens, of which there is at least one. -/
def cutArgs (tokens : List Token) : List (List Token) :=
  tokens.foldr (fun t rest =>
    if t.kind = .comma then [] :: rest
    else match rest with
      | [] => [[t]]
      | arg :: args => (t :: arg) :: args) [[]]

theorem cutArgs_cons (t : Token) (rest : List Token) :
    cutArgs (t :: rest) =
      if t.kind = .comma then [] :: cutArgs rest
      else
        match cutArgs rest with
        | [] => [[t]]
        | arg :: args => (t :: arg) :: args := rfl

theorem splitArgs_eq {tokens : List Token} (h : tokens ≠ []) :
    splitArgs tokens = cutArgs tokens := by
  cases tokens with
  | nil => exact absurd rfl h
  | cons t tokens => rfl

theorem cutArgs_append {rest arg' : List Token} {args : List (List Token)}
    (hrest : cutArgs rest = arg' :: args) : ∀ {arg : List Token},
    (∀ t ∈ arg, t.kind ≠ .comma) → cutArgs (arg ++ rest) = (arg ++ arg') :: args
  | [], _ => hrest
  | t :: arg, h => by
    have htail := cutArgs_append hrest fun x hx => h x (List.mem_cons_of_mem t hx)
    unfold cutArgs at htail ⊢
    rw [List.cons_append, List.foldr_cons, htail, if_neg (h t List.mem_cons_self)]
    rfl

theorem cutArgs_intercalate {comma : Token} (hcomma : comma.kind = .comma) :
    ∀ {args : List (List Token)} {arg : List Token}, (∀ a ∈ arg :: args, ∀ t ∈ a, t.kind ≠ .comma) →
    cutArgs (List.intercalate [comma] (arg :: args)) = arg :: args
  | [], arg, h => by
    have hcut := cutArgs_append (show cutArgs [] = [[]] from rfl) (h arg List.mem_cons_self)
    rw [List.append_nil] at hcut
    rw [List.intercalate_singleton, hcut]
  | arg' :: args, arg, h => by
    have hrest := cutArgs_intercalate hcomma fun a ha => h a (List.mem_cons_of_mem arg ha)
    have hdivided : cutArgs ([comma] ++ List.intercalate [comma] (arg' :: args)) =
        [] :: arg' :: args := by
      rw [List.singleton_append, cutArgs, List.foldr_cons, if_pos hcomma]
      exact congrArg ([] :: ·) hrest
    rw [List.intercalate_cons_cons, List.append_assoc,
      cutArgs_append hdivided (h arg List.mem_cons_self), List.append_nil]

/-- Arguments with commas between them are found again. -/
theorem splitArgs_intercalate {comma : Token} (hcomma : comma.kind = .comma)
    {args : List (List Token)} (h : ∀ arg ∈ args, arg ≠ [] ∧ ∀ t ∈ arg, t.kind ≠ .comma) :
    splitArgs (List.intercalate [comma] args) = args := by
  cases args with
  | nil => rfl
  | cons arg args =>
    have hne : List.intercalate [comma] (arg :: args) ≠ [] := by
      cases args with
      | nil => simpa using (h arg List.mem_cons_self).1
      | cons arg' args => simp [List.intercalate_cons_cons]
    rw [splitArgs_eq hne, cutArgs_intercalate hcomma fun a ha => (h a ha).2]

theorem mem_of_mem_intercalate {comma t : Token} : ∀ {args : List (List Token)},
    t ∈ List.intercalate [comma] args → t = comma ∨ ∃ arg ∈ args, t ∈ arg
  | [], h => by simp at h
  | [arg], h => Or.inr ⟨arg, List.mem_singleton_self arg, by simpa using h⟩
  | arg :: arg' :: args, h => by
    rw [List.intercalate_cons_cons, List.append_assoc, List.singleton_append, List.mem_append,
      List.mem_cons] at h
    rcases h with h | h | h
    · exact Or.inr ⟨arg, List.mem_cons_self, h⟩
    · exact Or.inl h
    · rcases mem_of_mem_intercalate h with hcomma | ⟨x, hx, ht⟩
      · exact Or.inl hcomma
      · exact Or.inr ⟨x, List.mem_cons_of_mem arg hx, ht⟩

end Line

end Mips
