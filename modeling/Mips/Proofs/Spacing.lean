import Mathlib.Data.List.TakeWhile
import Mips.Proofs.Inline

/-!
# The text between tokens

What a line holds besides its tokens is blanks, and perhaps a comment at its end
(`scan_covers_line`). Nothing hangs on these gaps: with one blank between two tokens, whatever stood
there before, the line is cut into the same tokens, and it defines a constant if it did before
(`spacing_irrelevant`).

    line       gap₁ text₁ gap₂ text₂ … textₙ last # comment
    spanText        text₁  ' ' text₂ … textₙ

A blank ends every token that a longer name could have gone on with, and no token grows by standing
apart from the next one, as it asks of what follows only whether a name goes on.
-/

namespace Mips

namespace Token

theorem scan_eq_ok {line : List Char} {tokens : List Token}
    (h : (scan line).toOption = some tokens) : scan line = .ok tokens := by
  cases hscan : scan line with
  | error cause => simp [hscan, Except.toOption] at h
  | ok found =>
    rw [hscan] at h
    exact congrArg Except.ok (Option.some.inj h)

/-! ### Gaps -/

/-- The line is made of the tokens with a gap of blanks before each, of one more gap, and perhaps of
a comment. -/
structure Spaced (line : List Char) (tokens : List Token) (gaps : List (List Char))
    (last comment : List Char) : Prop where
  count : gaps.length = tokens.length
  whole : line =
    (List.zipWith (fun gap t => gap ++ t.text.toList) gaps tokens).flatten ++ (last ++ comment)
  blank : ∀ gap ∈ last :: gaps, ∀ c ∈ gap, c = ' ' ∨ c = '\t' ∨ c = '\r'
  marked : comment = [] ∨ ∃ rest, comment = '#' :: rest

theorem spaced_nil {last comment : List Char} (hlast : ∀ c ∈ last, isSpace c = true)
    (hcomment : comment = [] ∨ ∃ rest, comment = '#' :: rest) :
    Spaced (last ++ comment) [] [] last comment := by
  refine ⟨rfl, rfl, ?_, hcomment⟩
  intro gap hgap c hc
  obtain rfl := List.mem_singleton.1 hgap
  exact isSpace_iff.1 (hlast c hc)

theorem Spaced.cons {rest : List Char} {tokens : List Token} {gaps : List (List Char)}
    {last comment gap : List Char} (h : Spaced rest tokens gaps last comment)
    (hgap : ∀ c ∈ gap, isSpace c = true) (t : Token) :
    Spaced (gap ++ (t.text.toList ++ rest)) (t :: tokens) (gap :: gaps) last comment := by
  refine ⟨congrArg (· + 1) h.count, ?_, ?_, h.marked⟩
  · rw [h.whole, List.zipWith_cons_cons, List.flatten_cons, List.append_assoc, List.append_assoc]
  · intro gap' hgap' c hc
    rcases List.mem_cons.1 hgap' with rfl | hgap'
    · exact h.blank _ List.mem_cons_self c hc
    · rcases List.mem_cons.1 hgap' with rfl | hgap'
      · exact isSpace_iff.1 (hgap c hc)
      · exact h.blank gap' (List.mem_cons_of_mem _ hgap') c hc

theorem Cut.exists_spaced {line : List Char} {tokens : List Token} (h : Cut line tokens) :
    ∃ gaps last comment, Spaced line tokens gaps last comment := by
  induction h with
  | @finish gap hgap =>
    refine ⟨[], gap, [], ?_⟩
    have hspaced := spaced_nil hgap (.inl rfl)
    rwa [List.append_nil] at hspaced
  | comment rest hgap => exact ⟨[], _, _, spaced_nil hgap (.inr ⟨rest, rfl⟩)⟩
  | @token gap c text rest kind tokens hgap _ _ _ _ ih =>
    obtain ⟨gaps, last, comment, hspaced⟩ := ih
    refine ⟨gap :: gaps, last, comment, ?_⟩
    have hcons := hspaced.cons hgap ⟨kind, String.ofList (c :: text)⟩
    rwa [String.toList_ofList] at hcons

/-! ### Tokens apart from each other -/

/-- A text that no name goes on with may stand behind every token. -/
theorem EndsLike.of_apart {other : List Char} (h : Apart other) (rest : List Char) :
    EndsLike other rest := by
  refine ⟨fun _ => h, fun _ c hc => ?_⟩
  cases hstart : isNameStart c with
  | false => rfl
  | true => rw [← h c hc, isNameChar_of_isNameStart hstart]

/-- A token that stands at the start of a line, before a text that no name goes on with. -/
theorem scan_apart {c : Char} {text rest rest' : List Char} {kind : TokenKind}
    {tokens : List Token} (hspace : isSpace c = false) (hcomment : c ≠ '#')
    (hlexeme : ∀ other, EndsLike other rest → lexeme c (text ++ other) = .ok (kind, text.length))
    (hapart : Apart rest') (htokens : scan rest' = .ok tokens) :
    scan (c :: (text ++ rest')) = .ok (⟨kind, String.ofList (c :: text)⟩ :: tokens) := by
  rw [scan_cons hspace hcomment (hlexeme rest' (.of_apart hapart rest)), List.drop_left,
    List.take_left, htokens]
  rfl

/-- The text of a token alone is cut into that token. -/
theorem Cut.scan_text {line : List Char} {tokens : List Token} (h : Cut line tokens) :
    ∀ t ∈ tokens, Token.scan t.text.toList = .ok [t] := by
  induction h with
  | finish _ | comment _ _ => simp
  | token _ hspace hcomment hlexeme _ ih =>
    intro t ht
    rcases List.mem_cons.1 ht with rfl | ht
    · have halone := scan_apart hspace hcomment hlexeme apart_nil Line.scan_nil
      rw [List.append_nil] at halone
      exact (congrArg Token.scan String.toList_ofList).trans halone
    · exact ih t ht

/-- A line that is cut into tokens is their texts, with blanks before, between and behind them, and
perhaps a comment at the end. Each text is one token by itself. -/
theorem scan_covers_line {line : List Char} {tokens : List Token} (h : scan line = .ok tokens) :
    (∃ gaps last comment, Spaced line tokens gaps last comment) ∧
      ∀ t ∈ tokens, t.text ≠ "" ∧ scan t.text.toList = .ok [t] := by
  have hcut := cut_of_scan h
  refine ⟨hcut.exists_spaced, ?_⟩
  intro t ht
  have hscan := hcut.scan_text t ht
  refine ⟨?_, hscan⟩
  intro hempty
  rw [hempty, String.toList_empty, Line.scan_nil] at hscan
  exact absurd (Except.ok.inj hscan) (by simp)

/-- Quotes keep a number sign from being a comment, and a comment keeps a quote from being a
literal. -/
theorem string_covers_line :
    scan " .ascii\t\"é #\"# \"".toList =
        .ok [⟨.directive "ascii", ".ascii"⟩, ⟨.string "é #", "\"é #\""⟩] ∧
      (∃ gaps last comment, Spaced " .ascii\t\"é #\"# \"".toList
        [⟨.directive "ascii", ".ascii"⟩, ⟨.string "é #", "\"é #\""⟩] gaps last comment) ∧
      scan "\"é #\"".toList = .ok [⟨.string "é #", "\"é #\""⟩] := by
  have hscan : scan " .ascii\t\"é #\"# \"".toList =
      .ok [⟨.directive "ascii", ".ascii"⟩, ⟨.string "é #", "\"é #\""⟩] :=
    scan_eq_ok (by decide +kernel)
  obtain ⟨hspaced, htexts⟩ := scan_covers_line hscan
  exact ⟨hscan, hspaced, (htexts ⟨.string "é #", "\"é #\""⟩ (by simp)).2⟩

/-! ### One blank between two tokens -/

theorem exists_spanText_cons (t : Token) (tokens : List Token) :
    ∃ rest, (spanText (t :: tokens)).toList = t.text.toList ++ rest ∧ Apart rest ∧
      scan rest = scan (spanText tokens).toList := by
  cases tokens with
  | nil => exact ⟨[], by simp [spanText], apart_nil, rfl⟩
  | cons t' tokens =>
    refine ⟨' ' :: (spanText (t' :: tokens)).toList, ?_, ?_, scan_blank _⟩
    · simp [spanText, String.intercalate_cons_cons]
    · rintro c hc
      rw [← Option.some.inj hc]
      decide

theorem Cut.scan_spanText {line : List Char} {tokens : List Token} (h : Cut line tokens) :
    Token.scan (spanText tokens).toList = .ok tokens := by
  induction h with
  | finish _ | comment _ _ => exact Line.scan_nil
  | @token gap c text rest kind tokens hgap hspace hcomment hlexeme _ ih =>
    obtain ⟨rest', htext, hapart, hrest⟩ :=
      exists_spanText_cons ⟨kind, String.ofList (c :: text)⟩ tokens
    rw [htext, String.toList_ofList]
    exact scan_apart hspace hcomment hlexeme hapart (hrest.trans ih)

end Token

/-! ### Definitions of constants -/

namespace Line

/-- Whether the first thing on a line is a name with the sign of a definition behind it. -/
def startsDefinition (text : List Char) : Bool :=
  match text.dropWhile Token.isSpace with
  | [] => false
  | c :: rest =>
    isNameStart c && ((rest.dropWhile isNameChar).dropWhile Token.isSpace).head? == some '='

theorem statement?_constant_iff {tokens : List Token} :
    (∃ name value, statement? tokens = .ok (some (.constant name value))) ↔
      (∃ t ∈ tokens.head?, ∃ name, t.kind = .name name) ∧
        ∃ t ∈ tokens.tail.head?, t.kind = .assign := by
  rcases tokens with _ | ⟨⟨kind, text⟩, _ | ⟨⟨kind', text'⟩, tokens⟩⟩
  · simp [statement?]
  · cases kind <;> simp [statement?]
  · cases kind with
    | name name => cases kind' <;> simp [statement?]
    | _ => simp [statement?]

end Line

namespace Token

theorem lexeme_assign_iff {c : Char} {rest : List Char} {kind : TokenKind} {n : Nat}
    (h : lexeme c rest = .ok (kind, n)) : kind = .assign ↔ c = '=' := by
  constructor
  · rintro rfl
    cases hstart : isNameStart c with
    | false => exact (lexeme_unnamed hstart h).2 rfl
    | true => simp [lexeme, hstart] at h
  · rintro rfl
    have hassign : lexeme '=' rest = .ok (.assign, 0) := rfl
    exact (Prod.mk.inj (Except.ok.inj (h.symm.trans hassign))).1

theorem lexeme_name_iff {c : Char} {rest : List Char} {kind : TokenKind} {n : Nat}
    (h : lexeme c rest = .ok (kind, n)) :
    (∃ name, kind = .name name) ↔ isNameStart c = true := by
  constructor
  · rintro ⟨name, rfl⟩
    exact (lexeme_name h).1
  · intro hstart
    rw [lexeme, if_pos hstart] at h
    exact ⟨_, (Prod.mk.inj (Except.ok.inj h)).1.symm⟩

/-- The first character behind the blanks tells whether the first token is the sign of a
definition. -/
theorem Cut.head?_eq_assign_iff {line : List Char} {tokens : List Token} (h : Cut line tokens) :
    (line.dropWhile isSpace).head? = some '=' ↔ ∃ t ∈ tokens.head?, t.kind = .assign := by
  cases h with
  | finish hgap => simp [List.dropWhile_eq_nil_iff.2 hgap]
  | comment rest hgap =>
    rw [(split_gap hgap ('#' :: rest) (by simp [isSpace])).2]
    simp
  | @token gap c text rest kind tokens hgap hspace _ hlexeme _ =>
    rw [(split_gap hgap (c :: (text ++ rest)) (by simp [hspace])).2]
    simp [lexeme_assign_iff (hlexeme rest (.of_head? rfl))]

theorem Cut.startsDefinition_iff {line : List Char} {tokens : List Token} (h : Cut line tokens) :
    Line.startsDefinition line = true ↔
      ∃ name value, Line.statement? tokens = .ok (some (.constant name value)) := by
  rw [Line.statement?_constant_iff]
  cases h with
  | finish hgap => simp [Line.startsDefinition, List.dropWhile_eq_nil_iff.2 hgap]
  | comment rest hgap =>
    have hdrop := (split_gap hgap ('#' :: rest) (by simp [isSpace])).2
    have hnumber : isNameStart '#' = false := by decide
    simp [Line.startsDefinition, hdrop, hnumber]
  | @token gap c text rest kind tokens hgap hspace _ hlexeme hrest =>
    have hdrop := (split_gap hgap (c :: (text ++ rest)) (by simp [hspace])).2
    have hread := hlexeme rest (.of_head? rfl)
    have hname : (∃ t ∈ (⟨kind, String.ofList (c :: text)⟩ :: tokens : List Token).head?,
        ∃ name, t.kind = .name name) ↔ isNameStart c = true := by
      simp [lexeme_name_iff hread]
    rw [hname, List.tail_cons, ← hrest.head?_eq_assign_iff]
    simp only [Line.startsDefinition, hdrop, Bool.and_eq_true, beq_iff_eq]
    refine and_congr_right fun hstart => ?_
    -- behind a name stands what follows the token
    obtain ⟨name, rfl⟩ := (lexeme_name_iff hread).2 hstart
    obtain ⟨hchars, hapart⟩ := isNameChar_lexeme hread
    have hbehind : (text ++ rest).dropWhile isNameChar = rest := by
      rw [List.dropWhile_append_of_pos fun x hx => hchars x (List.mem_cons_of_mem c hx)]
      cases rest with
      | nil => rfl
      | cons d rest => exact List.dropWhile_cons_of_neg (by simp [hapart d rfl])
    rw [hbehind]

/-- The texts of the tokens of a line, with one blank between two of them, are cut into these tokens
again, and their first name defines a constant if it did so in the line. -/
theorem spacing_irrelevant {line : List Char} {tokens : List Token} (h : scan line = .ok tokens) :
    scan (spanText tokens).toList = .ok tokens ∧
      Line.startsDefinition (spanText tokens).toList = Line.startsDefinition line ∧
      (Line.startsDefinition line = true ↔
        ∃ name value, Line.statement? tokens = .ok (some (.constant name value))) := by
  have hcut := cut_of_scan h
  have hspan := hcut.scan_spanText
  refine ⟨hspan, ?_, hcut.startsDefinition_iff⟩
  rw [Bool.eq_iff_iff, hcut.startsDefinition_iff, (cut_of_scan hspan).startsDefinition_iff]

/-- The tokens of a definition without any blanks. -/
theorem definition_without_blanks :
    scan "k='#'# k".toList = .ok [⟨.name "k", "k"⟩, ⟨.assign, "="⟩, ⟨.number 0x23, "'#'"⟩] ∧
      scan "k = '#'".toList = .ok [⟨.name "k", "k"⟩, ⟨.assign, "="⟩, ⟨.number 0x23, "'#'"⟩] ∧
      Line.startsDefinition "k='#'# k".toList = true := by
  have hscan : scan "k='#'# k".toList =
      .ok [⟨.name "k", "k"⟩, ⟨.assign, "="⟩, ⟨.number 0x23, "'#'"⟩] :=
    scan_eq_ok (by decide +kernel)
  obtain ⟨hspan, -, hdefines⟩ := spacing_irrelevant hscan
  have htext : spanText [⟨.name "k", "k"⟩, ⟨.assign, "="⟩, ⟨.number 0x23, "'#'"⟩] = "k = '#'" := by
    decide +kernel
  rw [htext] at hspan
  exact ⟨hscan, hspan, hdefines.2 ⟨_, _, rfl⟩⟩

end Token

end Mips
