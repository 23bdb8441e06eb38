import Mips.Proofs.Lexeme
import Mips.Proofs.Text

/-!
# Writing a number for a name

`Source.inline` takes a source and writes the digits of a number for a name, wherever the name is an
operand of an instruction and the occurrence is picked. Everything else stays: blanks, comments,
labels, mnemonics, strings that hold the name, and how the lines end. The new source has the same
lines, with the same tokens but for the picked ones (`Source.read_inline`), because a number ends
where the name did and the token before it does not look further.

    loop:  addi $t0, step, 1   # step
           ───┬            ▲
              │            picked: loop:  addi $t0, 4, 1   # step
    first token, never picked
-/

namespace Mips

namespace Token

/-! ### Tokens of a line -/

/-- The digits of a number. -/
def digits (v : Word) : List Char := Nat.toDigits 10 v.toNat

/-- The line with the digits of `v` for the tokens `name` that are picked by their position. -/
def inline (name : String) (v : Word) (pick : Nat → Bool) (line : List Char) : List Char :=
  line.takeWhile isSpace ++
    match h : line.dropWhile isSpace with
    | [] => []
    | c :: rest =>
      if c = '#' then c :: rest
      else
        match lexeme c rest with
        | .error _ => c :: rest
        | .ok (kind, n) =>
          have := length_rest_lt h n
          (if kind = .name name ∧ pick 0 = true then digits v else c :: rest.take n) ++
            inline name v (fun i => pick (i + 1)) (rest.drop n)
termination_by line.length
decreasing_by assumption

/-- The tokens with the number `v` for those `name` that are picked by their position. -/
def inlined (name : String) (v : Word) : (Nat → Bool) → List Token → List Token
  | _, [] => []
  | pick, t :: rest =>
    (if t.kind = .name name ∧ pick 0 = true then ⟨.number v, String.ofList (digits v)⟩ else t) ::
      inlined name v (fun i => pick (i + 1)) rest

theorem split_gap {gap : List Char} (hgap : ∀ c ∈ gap, isSpace c = true) (rest : List Char)
    (hrest : ∀ c ∈ rest.head?, isSpace c = false) :
    (gap ++ rest).takeWhile isSpace = gap ∧ (gap ++ rest).dropWhile isSpace = rest := by
  rw [List.takeWhile_append_of_pos hgap, List.dropWhile_append_of_pos hgap]
  cases rest with
  | nil => simp
  | cons c rest => simp [hrest c rfl]

section

variable (name : String) (v : Word) (pick : Nat → Bool) {gap : List Char}

theorem inline_finish (hgap : ∀ c ∈ gap, isSpace c = true) :
    inline name v pick gap = gap := by
  obtain ⟨htake, hdrop⟩ := split_gap hgap [] (by simp)
  rw [List.append_nil] at htake hdrop
  rw [inline, htake]
  split
  · exact List.append_nil gap
  · next hcons => simp [hdrop] at hcons

theorem inline_comment (hgap : ∀ c ∈ gap, isSpace c = true) (rest : List Char) :
    inline name v pick (gap ++ '#' :: rest) = gap ++ '#' :: rest := by
  obtain ⟨htake, hdrop⟩ := split_gap hgap ('#' :: rest) (by simp [isSpace])
  rw [inline, htake]
  split
  · next hnil => simp [hdrop] at hnil
  · next hcons =>
    rw [hdrop] at hcons
    obtain ⟨rfl, rfl⟩ := List.cons.inj hcons
    exact congrArg (gap ++ ·) (if_pos rfl)

theorem inline_token {c : Char} {text rest : List Char} {kind : TokenKind}
    (hgap : ∀ c ∈ gap, isSpace c = true) (hspace : isSpace c = false) (hcomment : c ≠ '#')
    (hlexeme : lexeme c (text ++ rest) = .ok (kind, text.length)) :
    inline name v pick (gap ++ c :: (text ++ rest)) =
      gap ++ ((if kind = .name name ∧ pick 0 = true then digits v else c :: text) ++
        inline name v (fun i => pick (i + 1)) rest) := by
  obtain ⟨htake, hdrop⟩ := split_gap hgap (c :: (text ++ rest)) (by simp [hspace])
  rw [inline, htake]
  split
  · next hnil => simp [hdrop] at hnil
  · next hcons =>
    rw [hdrop] at hcons
    obtain ⟨rfl, rfl⟩ := List.cons.inj hcons
    rw [if_neg hcomment, hlexeme]
    simp only [List.drop_left, List.take_left]

end

/-! ### What is kept -/

section

variable {name : String} {v : Word} {line : List Char} {tokens : List Token}

theorem isNameChar_digits (v : Word) : ∀ c ∈ digits v, isNameChar c = true :=
  isNameChar_of_mem_toDigits (by decide) (by decide) v.toNat

theorem exists_digits (v : Word) : ∃ c cs, digits v = c :: cs ∧ isNameStart c = false ∧
    ∀ other, Apart other → lexeme c (cs ++ other) = .ok (.number v, cs.length) := by
  cases hcs : Nat.toDigits 10 v.toNat with
  | nil => exact absurd hcs Nat.toDigits_ne_nil
  | cons c cs =>
    have hmem : c ∈ Nat.toDigits 10 v.toNat := hcs ▸ List.mem_cons_self
    refine ⟨c, cs, hcs, ?_, fun other hother => ?_⟩
    · exact isNameStart_of_isDigit (Nat.isDigit_of_mem_toDigits (by decide) (by decide) hmem)
    · have hnumber := Reads.lexeme_decimal v.isLt hcs hother
      rwa [BitVec.ofNat_toNat, BitVec.setWidth_eq] at hnumber

/-- A name is all name characters, and none goes on behind it. -/
theorem isNameChar_lexeme {c : Char} {text rest : List Char} {name : String}
    (h : lexeme c (text ++ rest) = .ok (.name name, text.length)) :
    (∀ x ∈ c :: text, isNameChar x = true) ∧ Apart rest := by
  obtain ⟨hstart, hlength⟩ := lexeme_name h
  obtain ⟨rest', hrest, hapart, -⟩ := exists_takeWhile (text ++ rest)
  obtain ⟨htext, rfl⟩ := List.append_inj hrest hlength
  refine ⟨fun x hx => ?_, hapart⟩
  rcases List.mem_cons.1 hx with rfl | hx
  · exact isNameChar_of_isNameStart hstart
  · rw [htext] at hx
    exact List.all_eq_true.1 List.all_takeWhile x hx

/-- The new line goes on with a name only where the old one did: a digit stands for a letter. -/
theorem endsLike_inline (h : Cut line tokens) (pick : Nat → Bool) :
    EndsLike (inline name v pick line) line := by
  cases h with
  | finish hgap => rw [inline_finish name _ pick hgap]; exact .of_head? rfl
  | comment rest hgap => rw [inline_comment name _ pick hgap]; exact .of_head? rfl
  | @token gap c text rest kind tokens hgap hspace hcomment hlexeme h =>
    have hread := hlexeme rest (.of_head? rfl)
    rw [inline_token name _ pick hgap hspace hcomment hread]
    cases gap with
    | cons x gap => exact .of_head? rfl
    | nil =>
      split
      · next hpicked =>
        obtain ⟨d, ds, hdigits, hstart, -⟩ := exists_digits v
        rw [hpicked.1] at hread
        have hname := (lexeme_name hread).1
        rw [hdigits]
        refine ⟨fun hapart => ?_, fun _ x hx => ?_⟩
        · have hno := hapart c rfl
          simp [isNameChar_of_isNameStart hname] at hno
        · rw [← Option.some.inj hx]
          exact hstart
      · exact .of_head? rfl

/-- The new line has the same tokens, but for the number where the name was picked. -/
theorem cut_inline (h : Cut line tokens) (pick : Nat → Bool) :
    Cut (inline name v pick line) (inlined name v pick tokens) := by
  induction h generalizing pick with
  | finish hgap =>
    rw [inline_finish name _ pick hgap]
    exact .finish hgap
  | comment rest hgap =>
    rw [inline_comment name _ pick hgap]
    exact .comment rest hgap
  | @token gap c text rest kind tokens hgap hspace hcomment hlexeme h ih =>
    have hends : EndsLike (inline name v (fun i => pick (i + 1)) rest) rest :=
      endsLike_inline h _
    have hread := hlexeme rest (.of_head? rfl)
    rw [inline_token name _ pick hgap hspace hcomment hread, inlined]
    split
    · next hpicked =>
      obtain ⟨d, ds, hdigits, -, hnumber⟩ := exists_digits v
      obtain ⟨rfl, -⟩ := hpicked
      have hsolid := solid_of_isNameChar (isNameChar_digits v d (hdigits ▸ List.mem_cons_self))
      rw [hdigits, List.cons_append]
      -- the name took in all name characters, so the number ends where it did
      have hread' : ∀ other, EndsLike other (inline name v (fun i => pick (i + 1)) rest) →
          lexeme d (ds ++ other) = .ok (.number v, ds.length) := fun other hother =>
        hnumber other (hother.apart (hends.apart (isNameChar_lexeme hread).2))
      exact .token hgap hsolid.1 hsolid.2.1 hread' (ih _)
    · rw [List.cons_append]
      exact .token hgap hspace hcomment (fun other hother => hlexeme other (hother.trans hends))
        (ih _)

/-- What no name holds is found first where it was. -/
theorem find?_inline {p : Char → Bool} (hp : ∀ c, isNameChar c = true → p c = false)
    (h : Cut line tokens) (pick : Nat → Bool) :
    (inline name v pick line).find? p = line.find? p := by
  have hnone : ∀ cs : List Char, (∀ c ∈ cs, isNameChar c = true) → cs.find? p = none := by
    intro cs hcs
    refine List.find?_eq_none.2 fun c hc => ?_
    simp [hp c (hcs c hc)]
  induction h generalizing pick with
  | finish hgap => rw [inline_finish name v pick hgap]
  | comment rest hgap => rw [inline_comment name v pick hgap]
  | @token gap c text rest kind tokens hgap hspace hcomment hlexeme h ih =>
    have hread := hlexeme rest (.of_head? rfl)
    rw [inline_token name v pick hgap hspace hcomment hread, ← List.cons_append,
      List.find?_append, List.find?_append, List.find?_append, List.find?_append, ih]
    split
    · next hpicked =>
      rw [hpicked.1] at hread
      rw [hnone _ (isNameChar_digits v), hnone _ (isNameChar_lexeme hread).1]
    · rfl

theorem not_mem_inline {x : Char} (hx : isNameChar x = false) (h : Cut line tokens)
    (pick : Nat → Bool) (hmem : x ∉ line) : x ∉ inline name v pick line := by
  have hname : ∀ c, isNameChar c = true → (c == x) = false := by
    rintro c hc
    rw [beq_eq_false_iff_ne]
    rintro rfl
    simp [hx] at hc
  have hfind : (inline name v pick line).find? (· == x) = line.find? (· == x) :=
    find?_inline hname h pick
  have hnone : line.find? (· == x) = none := by
    refine List.find?_eq_none.2 fun c hc => ?_
    rw [beq_iff_eq]
    rintro rfl
    exact hmem hc
  rw [hnone] at hfind
  exact fun hnew => List.find?_eq_none.1 hfind x hnew (beq_self_eq_true x)

/-- The last character is the old one or a digit. -/
theorem getLast?_inline (h : Cut line tokens) (pick : Nat → Bool) :
    (inline name v pick line).getLast? = line.getLast? ∨
      ∃ d, isNameChar d = true ∧ (inline name v pick line).getLast? = some d := by
  induction h generalizing pick with
  | finish hgap => exact Or.inl (by rw [inline_finish name v pick hgap])
  | comment rest hgap => exact Or.inl (by rw [inline_comment name v pick hgap])
  | @token gap c text rest kind tokens hgap hspace hcomment hlexeme h ih =>
    have hread := hlexeme rest (.of_head? rfl)
    rw [inline_token name v pick hgap hspace hcomment hread, ← List.cons_append,
      List.getLast?_append, List.getLast?_append, List.getLast?_append, List.getLast?_append]
    rcases ih fun i => pick (i + 1) with hsame | ⟨d, hd, hlast⟩
    · rw [hsame]
      split
      · cases hrest : rest.getLast? with
        | some x => exact Or.inl rfl
        | none =>
          have hne : digits v ≠ [] := Nat.toDigits_ne_nil
          refine Or.inr ⟨_, isNameChar_digits v _ (List.getLast_mem hne), ?_⟩
          rw [List.getLast?_eq_some_getLast hne]
          rfl
      · exact Or.inl rfl
    · exact Or.inr ⟨d, hd, by rw [hlast]; rfl⟩

end

end Token

/-! ### Lines -/

namespace Line

/-- The line with the digits of `v` for the operands `name` of its instruction that are picked by
their position among the tokens. The mnemonic is the token 0. -/
def inline (name : String) (v : Word) (pick : Nat → Bool) (text : List Char) : List Char :=
  match (read 0 text).1.bind (·.statement) with
  | some (.instruction _ _) =>
    text.take (text.length - (splitLabel text).2.length) ++
      Token.inline name v (fun i => i != 0 && pick i) (splitLabel text).2
  | _ => text

/-- The line with the number `v` for the operands `name` of its instruction that are picked. -/
def inlined (name : String) (v : Word) (pick : Nat → Bool) (line : Line) : Line :=
  match line.statement with
  | some (.instruction m args) =>
    { line with
      statement := some (.instruction m (Token.inlined name v (fun i => pick (i + 1)) args)) }
  | _ => line

theorem inlined_of_ne {name : String} {v : Word} {pick : Nat → Bool} {line : Line}
    (h : ∀ m args, line.statement ≠ some (.instruction m args)) :
    line.inlined name v pick = line := by
  unfold inlined
  split
  · next m args hstatement => exact absurd hstatement (h m args)
  · rfl

theorem splitLabel_colon {before : List Char} (h : ∀ c ∈ before, stopsLabel c = false)
    (rest : List Char) :
    splitLabel (before ++ ':' :: rest) = (some (Text.trim before), rest) := by
  have hbefore : ∀ c ∈ before, (!stopsLabel c) = true := fun c hc => by simp [h c hc]
  have hcolon : (!stopsLabel ':') = false := by decide
  rw [splitLabel, List.dropWhile_append_of_pos hbefore, List.takeWhile_append_of_pos hbefore]
  simp [hcolon]

theorem take_label (before rest : List Char) :
    (before ++ ':' :: rest).take ((before ++ ':' :: rest).length - rest.length) =
      before ++ [':'] := by
  have hlength : (before ++ ':' :: rest).length - rest.length = (before ++ [':']).length := by
    simp
    omega
  rw [hlength, List.append_cons before ':' rest, List.take_left]

/-- A line has a label up to a colon, or it has another mark first, or neither. -/
theorem splitLabel_cases (text : List Char) :
    (∃ before rest, text = before ++ ':' :: rest ∧ ∀ c ∈ before, stopsLabel c = false) ∨
      text.find? stopsLabel ≠ some ':' ∧ splitLabel text = (none, text) := by
  by_cases hcolon : ∃ rest, text.dropWhile (!stopsLabel ·) = ':' :: rest
  · obtain ⟨rest, hrest⟩ := hcolon
    refine Or.inl ⟨text.takeWhile (!stopsLabel ·), rest, ?_, fun c hc => ?_⟩
    · rw [← hrest, List.takeWhile_append_dropWhile]
    · simpa using List.all_eq_true.1 List.all_takeWhile c hc
  · refine Or.inr ⟨fun hfind => ?_, ?_⟩
    · obtain ⟨hstops, before, rest, rfl, hbefore⟩ := List.find?_eq_some_iff_append.1 hfind
      refine hcolon ⟨rest, ?_⟩
      rw [List.dropWhile_append_of_pos hbefore, List.dropWhile_cons_of_neg (by simp [hstops])]
    · unfold splitLabel
      split
      · next rest hrest => exact absurd ⟨rest, hrest⟩ hcolon
      · rfl

/-- The label of the new line is the old one. -/
theorem splitLabel_inline (name : String) (v : Word) {text : List Char} {tokens : List Token}
    (h : Token.Cut (splitLabel text).2 tokens) (pick : Nat → Bool) :
    splitLabel (text.take (text.length - (splitLabel text).2.length) ++
        Token.inline name v pick (splitLabel text).2) =
      ((splitLabel text).1, Token.inline name v pick (splitLabel text).2) := by
  rcases splitLabel_cases text with ⟨before, rest, rfl, hbefore⟩ | ⟨hfind, hnone⟩
  · rw [splitLabel_colon hbefore, take_label, ← List.append_cons, splitLabel_colon hbefore]
  · rw [hnone] at h ⊢
    rw [Nat.sub_self, List.take_zero, List.nil_append]
    rcases splitLabel_cases (Token.inline name v pick text) with
      ⟨before, rest, hnew, hbefore⟩ | ⟨-, hlabel⟩
    · -- the first mark would be a colon, but it is that of the old line
      refine absurd ?_ hfind
      rw [← Token.find?_inline (fun c => stopsLabel_of_isNameChar) h pick, hnew]
      refine List.find?_eq_some_iff_append.2 ⟨by decide, before, rest, rfl, fun c hc => ?_⟩
      simp [hbefore c hc]
    · exact hlabel

theorem statement?_eq_instruction {tokens : List Token} {m : String} {args : List Token}
    (h : statement? tokens = .ok (some (.instruction m args))) :
    ∃ mText, tokens = ⟨.name m, mText⟩ :: args ∧ ∀ t ∈ args.head?, t.kind ≠ .assign := by
  unfold statement? at h
  split at h
  · simp at h
  · next first rest =>
    obtain ⟨kind, text⟩ := first
    dsimp only at h
    split at h
    · simp at h
    · next hassign =>
      simp only [Except.ok.injEq, Option.some.injEq, Statement.instruction.injEq] at h
      obtain ⟨rfl, rfl⟩ := h
      refine ⟨text, rfl, ?_⟩
      rintro ⟨kind, argText⟩ ht rfl
      cases rest with
      | nil => simp at ht
      | cons t args => exact hassign argText args (by rw [Option.some.inj ht])
    · simp at h
    · simp at h

/-- The number of a line does not tell what stands there. -/
theorem statement_read (n n' : Nat) (text : List Char) :
    (read n text).1.bind (·.statement) = (read n' text).1.bind (·.statement) := by
  unfold read
  dsimp only
  split
  · rfl
  · split
    · rfl
    · rfl

/-- The parts that an instruction is read from. -/
theorem exists_of_instruction {n : Nat} {text : List Char} {line : Line} {m : String}
    {args : List Token} (h : (read n text).1 = some line)
    (hs : line.statement = some (.instruction m args)) :
    ∃ mText, Token.scan (splitLabel text).2 = .ok (⟨.name m, mText⟩ :: args) ∧
      ∀ t ∈ args.head?, t.kind ≠ .assign := by
  unfold read at h
  dsimp only at h
  split at h
  · simp at h
  · next tokens htokens =>
    split at h
    · next statement hstatement =>
      rw [← Option.some.inj h] at hs
      obtain rfl : statement = some (.instruction m args) := hs
      obtain ⟨mText, rfl, hargs⟩ := statement?_eq_instruction hstatement
      exact ⟨mText, htokens, hargs⟩
    · rw [← Option.some.inj h] at hs
      simp at hs

variable {name : String} {v : Word}

/-- The new line is read as the old one with the number for its operands. -/
theorem read_inline (pick : Nat → Bool) (text : List Char) (n : Nat) :
    read n (inline name v pick text) =
      ((read n text).1.map (inlined name v pick), (read n text).2) := by
  unfold inline
  split
  · next m args hstatement =>
    obtain ⟨line, hread, hs⟩ := Option.bind_eq_some_iff.1 hstatement
    obtain ⟨mText, hscan, hargs⟩ := exists_of_instruction hread hs
    have hcut := Token.cut_of_scan hscan
    have hlabel := splitLabel_inline name v hcut fun i => i != 0 && pick i
    have hscan' : Token.scan (Token.inline name v (fun i => i != 0 && pick i) (splitLabel text).2) =
        .ok (⟨.name m, mText⟩ :: Token.inlined name v (fun i => pick (i + 1)) args) := by
      rw [(Token.cut_inline hcut _).scan]
      simp [Token.inlined]
    have hargs' : ∀ t ∈ (Token.inlined name v (fun i => pick (i + 1)) args).head?,
        t.kind ≠ .assign := by
      rintro t ht
      cases args with
      | nil => simp [Token.inlined] at ht
      | cons first args =>
        rw [Token.inlined, List.head?_cons] at ht
        rw [← Option.some.inj ht]
        split
        · simp
        · exact hargs first rfl
    rw [read_of_scan hscan hargs, read_of_scan (by rw [hlabel]; exact hscan') hargs', hlabel]
    rfl
  · next hother =>
    cases hread : read n text with
    | mk line problems =>
      cases line with
      | none => rfl
      | some line =>
        have hstatement := statement_read 0 n text
        rw [hread] at hstatement
        rw [Option.map_some, inlined_of_ne fun m args hs => hother m args (hstatement.trans hs)]

/-- The new line is the old one, or a part of it is kept and the other has its tokens inlined. -/
theorem inline_cases (name : String) (v : Word) (pick : Nat → Bool) (text : List Char) :
    inline name v pick text = text ∨ ∃ before rest tokens pick',
      text = before ++ rest ∧ Token.Cut rest tokens ∧
        inline name v pick text = before ++ Token.inline name v pick' rest := by
  unfold inline
  split
  · next m args hstatement =>
    obtain ⟨line, hread, hs⟩ := Option.bind_eq_some_iff.1 hstatement
    obtain ⟨mText, hscan, -⟩ := exists_of_instruction hread hs
    refine Or.inr ⟨_, _, _, _, ?_, Token.cut_of_scan hscan, rfl⟩
    rcases splitLabel_cases text with ⟨before, rest, rfl, hbefore⟩ | ⟨-, hnone⟩
    · rw [splitLabel_colon hbefore, take_label, ← List.append_cons]
    · rw [hnone, Nat.sub_self]
      rfl
  · exact Or.inl rfl

theorem feed_not_mem_inline (pick : Nat → Bool) {text : List Char} (h : '\n' ∉ text) :
    '\n' ∉ inline name v pick text := by
  rcases inline_cases name v pick text with hsame | ⟨before, rest, tokens, pick', rfl, hcut, hnew⟩
  · rwa [hsame]
  · rw [List.mem_append, not_or] at h
    rw [hnew, List.mem_append, not_or]
    exact ⟨h.1, Token.not_mem_inline (by decide) hcut pick' h.2⟩

/-- The last character is the old one or a digit. -/
theorem getLast?_inline (pick : Nat → Bool) (text : List Char) :
    (inline name v pick text).getLast? = text.getLast? ∨
      ∃ d, isNameChar d = true ∧ (inline name v pick text).getLast? = some d := by
  rcases inline_cases name v pick text with hsame | ⟨before, rest, tokens, pick', rfl, hcut, hnew⟩
  · exact Or.inl (by rw [hsame])
  · rw [hnew, List.getLast?_append, List.getLast?_append]
    rcases Token.getLast?_inline hcut pick' with hlast | ⟨d, hd, hlast⟩
    · exact Or.inl (by rw [hlast])
    · exact Or.inr ⟨d, hd, by rw [hlast]; rfl⟩

theorem inline_nil (name : String) (v : Word) (pick : Nat → Bool) :
    inline name v pick [] = [] := by
  rw [inline, read_nil]
  rfl

theorem inline_eq_nil_iff (name : String) (v : Word) (pick : Nat → Bool) (text : List Char) :
    inline name v pick text = [] ↔ text = [] := by
  constructor
  · intro hnil
    rcases getLast?_inline pick text with hlast | ⟨d, -, hlast⟩
    · rw [hnil] at hlast
      exact List.getLast?_eq_none_iff.1 hlast.symm
    · simp [hnil] at hlast
  · rintro rfl
    exact inline_nil name v pick

end Line

/-! ### Texts -/

namespace Text

/-- The text with `f` applied to its lines, of which the first has the number `n`. Each line ends as
before. -/
def mapPieces (f : Nat → List Char → List Char) (n : Nat) : List (List Char) → List Char
  | [] => []
  | [last] => f n last
  | piece :: rest =>
    f n (dropReturn piece) ++ piece.drop (dropReturn piece).length ++
      '\n' :: mapPieces f (n + 1) rest

/-- The text with `f` applied to its lines by their number. -/
def mapLines (f : Nat → List Char → List Char) (cs : List Char) : List Char :=
  mapPieces f 1 (pieces cs)

theorem feed_not_mem_pieces (cs : List Char) : ∀ piece ∈ pieces cs, '\n' ∉ piece := by
  induction hn : cs.length using Nat.strongRecOn generalizing cs with
  | ind n ih =>
    rcases exists_feed cs with h | ⟨line, rest, rfl, h⟩
    · rw [pieces_of_not_mem h]
      rintro piece hpiece
      rwa [List.mem_singleton.1 hpiece]
    · rw [pieces_feed rest h]
      rintro piece hpiece
      rcases List.mem_cons.1 hpiece with rfl | hpiece
      · exact h
      · refine ih rest.length ?_ rest rfl piece hpiece
        rw [← hn]
        simp
        omega

theorem dropReturn_return (front : List Char) : dropReturn (front ++ ['\r']) = front := by
  simp [dropReturn]

/-- What ends a line is put behind the new line, and taken off again. -/
theorem dropReturn_append {piece line : List Char}
    (h : line.getLast? = some '\r' → (dropReturn piece).getLast? = some '\r') :
    dropReturn (line ++ piece.drop (dropReturn piece).length) = line := by
  by_cases hpiece : piece.getLast? = some '\r'
  · obtain ⟨front, rfl⟩ := List.getLast?_eq_some_iff.1 hpiece
    rw [dropReturn_return, List.drop_left, dropReturn_return]
  · have hkept : dropReturn piece = piece := if_neg hpiece
    rw [hkept] at h
    rw [hkept, List.drop_length, List.append_nil]
    exact if_neg fun hline => hpiece (h hline)

theorem feed_not_mem_return {piece : List Char} (h : '\n' ∉ piece) :
    '\n' ∉ dropReturn piece ∧ '\n' ∉ piece.drop (dropReturn piece).length := by
  refine ⟨fun hmem => h ?_, fun hmem => h (List.mem_of_mem_drop hmem)⟩
  unfold dropReturn at hmem
  split at hmem
  · exact (List.dropLast_sublist piece).subset hmem
  · exact hmem

section

variable {f : Nat → List Char → List Char}

/-- The lines of the new text are the new lines. -/
theorem lines_mapPieces (hfeed : ∀ n text, '\n' ∉ text → '\n' ∉ f n text)
    (hnil : ∀ n text, f n text = [] ↔ text = [])
    (hreturn : ∀ n text, (f n text).getLast? = some '\r' → text.getLast? = some '\r')
    {pieces : List (List Char)} (h : ∀ piece ∈ pieces, '\n' ∉ piece) (n : Nat) :
    lines (mapPieces f n pieces) = ((ofPieces pieces).zipIdx n).map fun (text, i) => f i text := by
  induction pieces generalizing n with
  | nil => rfl
  | cons piece pieces ih =>
    have hpiece := h piece List.mem_cons_self
    cases pieces with
    | nil =>
      rw [mapPieces, lines_of_not_mem (hfeed n piece hpiece), ofPieces]
      by_cases hempty : piece = []
      · rw [if_pos hempty, if_pos ((hnil n piece).2 hempty)]
        rfl
      · rw [if_neg hempty, if_neg (mt (hnil n piece).1 hempty)]
        rfl
    | cons piece' pieces =>
      obtain ⟨hline, hrest⟩ := feed_not_mem_return hpiece
      have hnew : '\n' ∉ f n (dropReturn piece) ++ piece.drop (dropReturn piece).length := by
        simp [hfeed n _ hline, hrest]
      rw [mapPieces, lines_feed hnew, dropReturn_append (hreturn n _), ofPieces,
        ih (fun x hx => h x (List.mem_cons_of_mem piece hx)) (n + 1)]
      · rfl
      · simp
      · simp

end

end Text

/-! ### Sources -/

namespace Source

/-- The source with the digits of `v` for the operands `name` of instructions that are picked by
their line and their position among its tokens. -/
def inline (name : String) (v : Word) (pick : Nat → Nat → Bool) (source : String) : String :=
  String.ofList (Text.mapLines (fun n => Line.inline name v (pick n)) source.toList)

variable (name : String) (v : Word) (pick : Nat → Nat → Bool)

theorem linesFrom_inline (texts : List (List Char)) (n : Nat) :
    linesFrom n ((texts.zipIdx n).map fun (text, i) => Line.inline name v (pick i) text) =
        (linesFrom n texts).map (fun line => line.inlined name v (pick line.number)) ∧
      reportFrom n ((texts.zipIdx n).map fun (text, i) => Line.inline name v (pick i) text) =
        reportFrom n texts := by
  induction texts generalizing n with
  | nil => exact ⟨rfl, rfl⟩
  | cons text texts ih =>
    obtain ⟨ihlines, ihreport⟩ := ih (n + 1)
    rw [List.zipIdx_cons, List.map_cons]
    rw [linesFrom, linesFrom, reportFrom, reportFrom, ihlines, ihreport, Line.read_inline,
      List.map_append]
    refine ⟨congrArg (· ++ _) ?_, rfl⟩
    cases hread : (Line.read n text).1 with
    | none => rfl
    | some line => simp [Line.number_read hread]

/-- The new source is read as the old one with the number for the picked operands, and the same is
wrong with it. -/
theorem read_inline (source : String) :
    (read (inline name v pick source)).lines =
        (read source).lines.map (fun line => line.inlined name v (pick line.number)) ∧
      (read (inline name v pick source)).diagnostics = (read source).diagnostics := by
  have hreturn : ∀ n text, (Line.inline name v (pick n) text).getLast? = some '\r' →
      text.getLast? = some '\r' := by
    intro n text hlast
    rcases Line.getLast?_inline (pick n) text with hsame | ⟨d, hd, hdigit⟩
    · rw [← hsame, hlast]
    · rw [hdigit] at hlast
      rw [Option.some.inj hlast] at hd
      exact absurd hd (by decide)
  have htexts : Text.lines (inline name v pick source).toList =
      ((Text.lines source.toList).zipIdx 1).map
        fun (text, i) => Line.inline name v (pick i) text := by
    rw [inline, String.toList_ofList]
    exact Text.lines_mapPieces (fun n text => Line.feed_not_mem_inline (pick n))
      (fun n => Line.inline_eq_nil_iff name v (pick n)) hreturn (Text.feed_not_mem_pieces _) 1
  rw [lines_read, lines_read, diagnostics_read, diagnostics_read, htexts]
  exact linesFrom_inline name v pick _ 1

end Source

end Mips
