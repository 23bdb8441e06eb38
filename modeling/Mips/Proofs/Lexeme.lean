import Mips.Proofs.Scan
import Mips.Proofs.Source

/-!
# What follows a token

A token is as long as it can be, so it may change with the characters behind it. All it asks of them
is whether they go on with a name: a literal ends at its quote and a mark is one character, and
every other token ends before the first character that no name holds. Before any other text that
goes on with a name only where the old one did, the same token is read (`local_lexeme`).

    rest = text ++ rest'     lexeme c rest = kind, text.length
           text ++ other     lexeme c (text ++ other) = kind, text.length
-/

namespace Mips

namespace Token

/-- The text `other` goes on with a name only if `rest` does. -/
structure EndsLike (other rest : List Char) : Prop where
  apart : Apart rest → Apart other
  unnamed : (∀ c ∈ rest.head?, isNameStart c = false) → ∀ c ∈ other.head?, isNameStart c = false

theorem EndsLike.of_head? {other rest : List Char} (h : other.head? = rest.head?) :
    EndsLike other rest := by
  refine ⟨fun hrest => ?_, fun hrest => ?_⟩
  · rwa [Apart, h]
  · rwa [h]

theorem EndsLike.trans {other rest rest' : List Char} (h : EndsLike other rest)
    (h' : EndsLike rest rest') : EndsLike other rest' :=
  ⟨fun hrest => h.apart (h'.apart hrest), fun hrest => h.unnamed (h'.unnamed hrest)⟩

theorem apart_nil : Apart [] := by
  intro c hc
  simp at hc

theorem apart_dropWhile (rest : List Char) : Apart (rest.dropWhile isNameChar) := by
  induction rest with
  | nil => exact apart_nil
  | cons c rest ih =>
    cases hc : isNameChar c with
    | true => simpa [hc] using ih
    | false =>
      rw [List.dropWhile_cons_of_neg (by simp [hc])]
      rintro x hx
      rw [← Option.some.inj hx]
      exact hc

/-! ### Names -/

/-- The name characters at the start of a text are its first part, and no name goes on behind
them. -/
theorem exists_takeWhile (rest : List Char) :
    ∃ rest', rest = rest.takeWhile isNameChar ++ rest' ∧ Apart rest' ∧
      ∀ other, EndsLike other rest' →
        (rest.takeWhile isNameChar ++ other).takeWhile isNameChar = rest.takeWhile isNameChar := by
  refine ⟨rest.dropWhile isNameChar, (List.takeWhile_append_dropWhile ..).symm,
    apart_dropWhile rest, fun other hother => ?_⟩
  refine takeWhile_apart (fun c hc => ?_) (hother.apart (apart_dropWhile rest))
  exact List.all_eq_true.1 (List.all_takeWhile ..) c hc

/-! ### Readers of one token -/

/-- What the reader takes is the first part of the text. It takes the same before every other text
that goes on with a name only where the old one did. -/
def Local (read : List Char → Except TokenError (TokenKind × Nat)) : Prop :=
  ∀ rest kind n, read rest = .ok (kind, n) →
    ∃ text rest', rest = text ++ rest' ∧ text.length = n ∧
      ∀ other, EndsLike other rest' → read (text ++ other) = .ok (kind, n)

theorem Local.ite {p : Prop} [Decidable p] {read read' : List Char → Except TokenError
    (TokenKind × Nat)} (h : Local read) (h' : Local read') :
    Local fun rest => if p then read rest else read' rest := by
  by_cases hp : p
  · simpa only [if_pos hp] using h
  · simpa only [if_neg hp] using h'

theorem local_name (c : Char) : Local fun rest =>
    .ok (.name (String.ofList (c :: rest.takeWhile isNameChar)),
      (rest.takeWhile isNameChar).length) := by
  intro rest kind n h
  obtain ⟨rest', hrest, -, hother⟩ := exists_takeWhile rest
  obtain ⟨rfl, rfl⟩ := Prod.mk.inj (Except.ok.inj h)
  refine ⟨_, rest', hrest, rfl, fun other hends => ?_⟩
  simp only [hother other hends]

theorem local_register : Local fun rest =>
    if (rest.takeWhile isNameChar).isEmpty then .error .missingRegister
    else .ok (.register (String.ofList (rest.takeWhile isNameChar)),
      (rest.takeWhile isNameChar).length) := by
  intro rest kind n h
  obtain ⟨rest', hrest, -, hother⟩ := exists_takeWhile rest
  dsimp only at h
  split at h
  · simp at h
  · next hsome =>
    obtain ⟨rfl, rfl⟩ := Prod.mk.inj (Except.ok.inj h)
    refine ⟨_, rest', hrest, rfl, fun other hends => ?_⟩
    simp only [hother other hends, if_neg hsome]

theorem local_mark (c : Char) : Local fun _ =>
    match symbol? c with
    | some kind => .ok (kind, 0)
    | none => .error (.unknownCharacter c) := by
  intro rest kind n h
  refine ⟨[], rest, rfl, ?_, fun other _ => h⟩
  cases hsymbol : symbol? c with
  | none => simp [hsymbol] at h
  | some kind' =>
    rw [hsymbol] at h
    exact (Prod.mk.inj (Except.ok.inj h)).2

/-! ### Literals -/

theorem exists_stringTail {rest cs : List Char} {n : Nat} (h : stringTail rest = .ok (cs, n)) :
    ∃ text rest', rest = text ++ rest' ∧ text.length = n ∧
      ∀ other, stringTail (text ++ other) = .ok (cs, n) := by
  fun_induction stringTail rest generalizing cs n with
  | case1 => simp at h
  | case2 => simp at h
  | case3 e rest hnone => simp at h
  | case4 e rest c hsome ih =>
    cases htail : stringTail rest with
    | error cause => simp [htail, Except.map] at h
    | ok found =>
      obtain ⟨cs', m⟩ := found
      obtain ⟨text, rest', rfl, rfl, hother⟩ := ih htail
      simp only [htail, Except.map, Except.ok.injEq, Prod.mk.injEq] at h
      obtain ⟨rfl, rfl⟩ := h
      refine ⟨'\\' :: e :: text, rest', rfl, rfl, fun other => ?_⟩
      rw [List.cons_append, List.cons_append, stringTail, hsome, hother]
      rfl
  | case5 rest hne hne' =>
    simp only [Except.ok.injEq, Prod.mk.injEq] at h
    obtain ⟨rfl, rfl⟩ := h
    exact ⟨['"'], rest, rfl, rfl, fun other => rfl⟩
  | case6 c rest hend hescape hquote ih =>
    have hc : c ≠ '\\' := by
      rintro rfl
      cases rest with
      | nil => exact hend rfl rfl
      | cons e rest => exact hescape e rest rfl rfl
    cases htail : stringTail rest with
    | error cause => simp [htail, Except.map] at h
    | ok found =>
      obtain ⟨cs', m⟩ := found
      obtain ⟨text, rest', rfl, rfl, hother⟩ := ih htail
      simp only [htail, Except.map, Except.ok.injEq, Prod.mk.injEq] at h
      obtain ⟨rfl, rfl⟩ := h
      refine ⟨c :: text, rest', rfl, rfl, fun other => ?_⟩
      rw [List.cons_append, stringTail, if_neg hquote, hother]
      · rfl
      · exact fun heq => absurd heq hc
      · exact fun _ _ heq => absurd heq hc

theorem local_string : Local fun rest =>
    (stringTail rest).map fun (cs, n) => (.string (String.ofList cs), n) := by
  intro rest kind n h
  cases htail : stringTail rest with
  | error cause => simp [htail, Except.map] at h
  | ok found =>
    obtain ⟨cs, m⟩ := found
    obtain ⟨text, rest', hrest, hlength, hother⟩ := exists_stringTail htail
    simp only [htail, Except.map, Except.ok.injEq, Prod.mk.injEq] at h
    obtain ⟨rfl, rfl⟩ := h
    refine ⟨text, rest', hrest, hlength, fun other _ => ?_⟩
    simp only [hother other, Except.map]

theorem exists_closeCharacter {c d : Char} {m n : Nat} {rest : List Char}
    (h : closeCharacter c m rest = .ok (d, n)) :
    ∃ rest', rest = '\x27' :: rest' ∧ n = m + 1 ∧
      ∀ other, closeCharacter c m ('\x27' :: other) = .ok (d, n) := by
  unfold closeCharacter at h
  split at h
  · next rest' =>
    obtain ⟨rfl, rfl⟩ := Prod.mk.inj (Except.ok.inj h)
    exact ⟨rest', rfl, rfl, fun other => rfl⟩
  · simp at h

theorem exists_characterTail {rest : List Char} {c : Char} {n : Nat}
    (h : characterTail rest = .ok (c, n)) :
    ∃ text rest', rest = text ++ rest' ∧ text.length = n ∧
      ∀ other, characterTail (text ++ other) = .ok (c, n) := by
  unfold characterTail at h
  split at h
  · simp at h
  · simp at h
  · next e rest =>
    split at h
    · simp at h
    · next d hsome =>
      obtain ⟨rest', rfl, rfl, hother⟩ := exists_closeCharacter h
      refine ⟨['\\', e, '\x27'], rest', rfl, rfl, fun other => ?_⟩
      have htail : characterTail ('\\' :: e :: '\x27' :: other) =
          closeCharacter d 2 ('\x27' :: other) := by rw [characterTail, hsome]
      exact htail.trans (hother other)
  · next d rest hend hescape =>
    have hd : d ≠ '\\' := by
      rintro rfl
      cases rest with
      | nil => exact hend rfl rfl
      | cons e rest => exact hescape e rest rfl rfl
    split at h
    · simp at h
    · next hquote =>
      obtain ⟨rest', rfl, rfl, hother⟩ := exists_closeCharacter h
      refine ⟨[d, '\x27'], rest', rfl, rfl, fun other => ?_⟩
      rw [List.cons_append, characterTail, if_neg hquote]
      · exact hother other
      · exact fun heq => absurd heq hd
      · exact fun _ _ heq => absurd heq hd

theorem local_character : Local fun rest =>
    (characterTail rest).map fun (c, n) => (.number (BitVec.ofNat 32 c.toNat), n) := by
  intro rest kind n h
  cases htail : characterTail rest with
  | error cause => simp [htail, Except.map] at h
  | ok found =>
    obtain ⟨c, m⟩ := found
    obtain ⟨text, rest', hrest, hlength, hother⟩ := exists_characterTail htail
    simp only [htail, Except.map, Except.ok.injEq, Prod.mk.injEq] at h
    obtain ⟨rfl, rfl⟩ := h
    refine ⟨text, rest', hrest, hlength, fun other _ => ?_⟩
    simp only [hother other, Except.map]

/-! ### Numbers -/

/-- The characters that tell a base behind a zero. -/
def marks : List (Char × Nat) := [('x', 16), ('X', 16), ('b', 2), ('B', 2)]

theorem mem_marks_iff {x : Char} {base : Nat} : (x, base) ∈ marks ↔
    x = 'x' ∧ base = 16 ∨ x = 'X' ∧ base = 16 ∨ x = 'b' ∧ base = 2 ∨ x = 'B' ∧ base = 2 := by
  simp [marks]

theorem isNameChar_of_mem_marks {x : Char} (h : x ∈ marks.map Prod.fst) : isNameChar x = true := by
  simp only [marks, List.map_cons, List.map_nil, List.mem_cons, List.not_mem_nil, or_false] at h
  rcases h with rfl | rfl | rfl | rfl <;> decide

theorem numeral_marked {x : Char} {base : Nat} (h : (x, base) ∈ marks) (rest : List Char) :
    1 < base ∧ base ≤ 16 ∧ numeral '0' (x :: rest) =
      (base, rest.takeWhile isNameChar, (rest.takeWhile isNameChar).length + 1) := by
  rcases mem_marks_iff.1 h with ⟨rfl, rfl⟩ | ⟨rfl, rfl⟩ | ⟨rfl, rfl⟩ | ⟨rfl, rfl⟩
  all_goals exact ⟨by decide, by decide, rfl⟩

/-- Where no base is told, the name characters are the digits. The character behind the zero is one
of them, or one that no name holds. -/
theorem numeral_unmarked {c : Char} {cs rest : List Char} (hcs : ∀ x ∈ cs, isNameChar x = true)
    (hrest : Apart rest) (h : c = '0' → ∀ x ∈ cs.head?, x ∉ marks.map Prod.fst) :
    numeral c (cs ++ rest) = (10, c :: cs, cs.length) := by
  rw [Reads.numeral_decimal, takeWhile_apart hcs hrest]
  intro hzero x hx hmark
  cases cs with
  | nil =>
    have hnone := hrest x hx
    rw [isNameChar_of_mem_marks hmark] at hnone
    simp at hnone
  | cons y cs => exact h hzero x hx hmark

theorem exists_numeral (c : Char) (rest : List Char) :
    ∃ base digits text rest', numeral c rest = (base, digits, text.length) ∧ rest = text ++ rest' ∧
      ∀ other, EndsLike other rest' →
        numeral c (text ++ other) = (base, digits, text.length) := by
  by_cases hmarked : c = '0' ∧ ∃ x ∈ rest.head?, x ∈ marks.map Prod.fst
  · obtain ⟨rfl, _, hx, hmem⟩ := hmarked
    obtain ⟨⟨x, base⟩, hmark, rfl⟩ := List.mem_map.1 hmem
    obtain ⟨tail, rfl⟩ := List.head?_eq_some_iff.1 hx
    obtain ⟨rest', htail, -, hother⟩ := exists_takeWhile tail
    refine ⟨base, tail.takeWhile isNameChar, x :: tail.takeWhile isNameChar, rest',
      (numeral_marked hmark tail).2.2, congrArg (x :: ·) htail, fun other hends => ?_⟩
    rw [List.cons_append, (numeral_marked hmark _).2.2, hother other hends]
    rfl
  · obtain ⟨rest', hrest, hapart, -⟩ := exists_takeWhile rest
    have hcs : ∀ x ∈ rest.takeWhile isNameChar, isNameChar x = true :=
      List.all_eq_true.1 List.all_takeWhile
    have hplain : c = '0' → ∀ x ∈ (rest.takeWhile isNameChar).head?, x ∉ marks.map Prod.fst := by
      intro hzero x hx hmark
      rw [List.head?_takeWhile] at hx
      exact hmarked ⟨hzero, x, (Option.filter_eq_some_iff.1 hx).1, hmark⟩
    have hwhole := numeral_unmarked hcs hapart hplain
    rw [← hrest] at hwhole
    exact ⟨10, _, _, rest', hwhole, hrest,
      fun other hends => numeral_unmarked hcs (hends.apart hapart) hplain⟩

theorem local_number (c : Char) : Local fun rest =>
    match readNumber (numeral c rest).1 (numeral c rest).2.1 with
    | .ok value => .ok (.number value, (numeral c rest).2.2)
    | .error cause => .error (.number (String.ofList (numeral c rest).2.1) cause) := by
  intro rest kind n h
  obtain ⟨base, digits, text, rest', hnumeral, hrest, hother⟩ := exists_numeral c rest
  simp only [hnumeral] at h
  cases hread : readNumber base digits with
  | error cause => simp [hread] at h
  | ok v =>
    rw [hread] at h
    obtain ⟨rfl, rfl⟩ := Prod.mk.inj (Except.ok.inj h)
    refine ⟨text, rest', hrest, rfl, fun other hends => ?_⟩
    simp only [hother other hends, hread]

/-! ### Dots -/

theorem afterDot_unnamed {rest : List Char} (h : ∀ c ∈ rest.head?, isNameStart c = false) :
    afterDot rest = (.here, 0) := by
  cases rest with
  | nil => rfl
  | cons c rest => simp [afterDot, h c rfl]

theorem local_dot : Local fun rest => .ok (afterDot rest) := by
  intro rest kind n h
  have hdot : afterDot rest = (kind, n) := Except.ok.inj h
  by_cases hstart : ∀ c ∈ rest.head?, isNameStart c = false
  · obtain ⟨rfl, rfl⟩ := Prod.mk.inj ((afterDot_unnamed hstart).symm.trans hdot)
    refine ⟨[], rest, rfl, rfl, fun other hends => ?_⟩
    exact congrArg Except.ok (afterDot_unnamed (hends.unnamed hstart))
  · cases rest with
    | nil => exact absurd (by simp) hstart
    | cons c rest =>
      have hc : isNameStart c = true := by simpa using hstart
      obtain ⟨rest', hrest, -, hother⟩ := exists_takeWhile rest
      simp only [afterDot, hc, if_true] at hdot
      obtain ⟨rfl, rfl⟩ := Prod.mk.inj hdot
      refine ⟨c :: rest.takeWhile isNameChar, rest', congrArg (c :: ·) hrest, rfl,
        fun other hends => ?_⟩
      simp only [List.cons_append, afterDot, hc, if_true, hother other hends]

/-! ### All tokens -/

/-- Whatever a token starts with, it asks of what follows only whether a name goes on. -/
theorem local_lexeme (c : Char) : Local (lexeme c) :=
  (local_name c).ite ((local_number c).ite (local_string.ite (local_character.ite
    (local_dot.ite (local_register.ite (local_mark c))))))

theorem symbol?_unnamed {c : Char} {kind : TokenKind} (h : symbol? c = some kind) :
    (∀ name, kind ≠ .name name) ∧ (kind = .assign → c = '=') := by
  unfold symbol? at h
  split at h <;> cases h <;> simp

/-- A token that does not start like a name is none. It is the sign of a definition only if it
starts with that character. -/
theorem lexeme_unnamed {c : Char} {rest : List Char} {kind : TokenKind} {n : Nat}
    (hstart : isNameStart c = false) (h : lexeme c rest = .ok (kind, n)) :
    (∀ name, kind ≠ .name name) ∧ (kind = .assign → c = '=') := by
  revert h
  fun_cases lexeme c rest with
  | case1 hname tail => simp [hstart] at hname
  | case2 | case8 =>
    -- numbers and registers
    rintro ⟨⟩
    simp
  | case3 | case7 | case10 => simp
  | case4 =>
    intro h
    cases htail : stringTail rest with
    | error cause => simp [htail, Except.map] at h
    | ok found =>
      obtain ⟨rfl, -⟩ := Prod.mk.inj (Except.ok.inj (htail ▸ h))
      simp
  | case5 =>
    intro h
    cases htail : characterTail rest with
    | error cause => simp [htail, Except.map] at h
    | ok found =>
      obtain ⟨rfl, -⟩ := Prod.mk.inj (Except.ok.inj (htail ▸ h))
      simp
  | case6 =>
    intro h
    obtain rfl : (afterDot rest).1 = kind := congrArg Prod.fst (Except.ok.inj h)
    fun_cases afterDot rest <;> simp
  | case9 _ _ _ _ _ _ mark hmark =>
    rintro ⟨⟩
    exact symbol?_unnamed hmark

/-- A name starts with a letter and takes in all name characters. -/
theorem lexeme_name {c : Char} {rest : List Char} {name : String} {n : Nat}
    (h : lexeme c rest = .ok (.name name, n)) :
    isNameStart c = true ∧ n = (rest.takeWhile isNameChar).length := by
  cases hstart : isNameStart c with
  | false => exact absurd rfl ((lexeme_unnamed hstart h).1 name)
  | true =>
    rw [lexeme, if_pos hstart] at h
    obtain ⟨-, rfl⟩ := Prod.mk.inj (Except.ok.inj h)
    exact ⟨rfl, rfl⟩

/-! ### Lines -/

theorem isSpace_iff {c : Char} : isSpace c = true ↔ c = ' ' ∨ c = '\t' ∨ c = '\r' := by
  simp [isSpace, or_assoc]

/-- A line is cut into tokens: blanks, a token that is read before every text that could stand in
the place of the rest, and the rest, up to the end of the line or a comment. -/
inductive Cut : List Char → List Token → Prop where
  | finish {gap : List Char} (hgap : ∀ c ∈ gap, isSpace c = true) : Cut gap []
  | comment {gap : List Char} (rest : List Char) (hgap : ∀ c ∈ gap, isSpace c = true) :
    Cut (gap ++ '#' :: rest) []
  | token {gap : List Char} {c : Char} {text rest : List Char} {kind : TokenKind}
    {tokens : List Token} (hgap : ∀ c ∈ gap, isSpace c = true) (hspace : isSpace c = false)
    (hcomment : c ≠ '#')
    (hlexeme : ∀ other, EndsLike other rest → lexeme c (text ++ other) = .ok (kind, text.length))
    (h : Cut rest tokens) :
    Cut (gap ++ c :: (text ++ rest)) (⟨kind, String.ofList (c :: text)⟩ :: tokens)

theorem scan_gap {gap : List Char} (h : ∀ c ∈ gap, isSpace c = true) (rest : List Char) :
    scan (gap ++ rest) = scan rest := by
  induction gap with
  | nil => rfl
  | cons c gap ih =>
    have hblank : scan (c :: (gap ++ rest)) = scan (gap ++ rest) := by
      rcases isSpace_iff.1 (h c List.mem_cons_self) with rfl | rfl | rfl
      · exact scan_blank _
      · rw [scan, scan]
        rfl
      · rw [scan, scan]
        rfl
    rw [List.cons_append, hblank, ih fun x hx => h x (List.mem_cons_of_mem c hx)]

theorem Cut.scan {line : List Char} {tokens : List Token} (h : Cut line tokens) :
    Token.scan line = .ok tokens := by
  induction h with
  | finish hgap =>
    have hend := scan_gap hgap []
    rw [List.append_nil] at hend
    rw [hend, Token.scan]
    rfl
  | comment rest hgap =>
    rw [scan_gap hgap, Token.scan]
    rfl
  | token hgap hspace hcomment hlexeme _ ih =>
    rw [scan_gap hgap, scan_cons hspace hcomment (hlexeme _ (.of_head? rfl)), List.drop_left,
      List.take_left, ih]
    rfl

theorem cut_of_scan {line : List Char} {tokens : List Token} (h : Token.scan line = .ok tokens) :
    Cut line tokens := by
  induction hn : line.length using Nat.strongRecOn generalizing line tokens with
  | ind n ih =>
    have hline := List.takeWhile_append_dropWhile (p := isSpace) (l := line)
    have hgap : ∀ c ∈ line.takeWhile isSpace, isSpace c = true :=
      List.all_eq_true.1 List.all_takeWhile
    have hrest := scan_gap hgap (line.dropWhile isSpace)
    rw [hline, h] at hrest
    cases hdrop : line.dropWhile isSpace with
    | nil =>
      rw [hdrop, Line.scan_nil] at hrest
      rw [hdrop, List.append_nil] at hline
      rw [Except.ok.inj hrest, ← hline]
      exact .finish hgap
    | cons c rest =>
      rw [hdrop] at hrest hline
      have hspace : isSpace c = false := by
        have hhead := List.head?_dropWhile_not isSpace line
        rw [hdrop] at hhead
        simpa using hhead
      by_cases hcomment : c = '#'
      · subst hcomment
        rw [Token.scan] at hrest
        rw [Except.ok.inj hrest, ← hline]
        exact .comment rest hgap
      · cases hlexeme : lexeme c rest with
        | error cause => simp [scan_step hspace hcomment, hlexeme] at hrest
        | ok found =>
          obtain ⟨kind, m⟩ := found
          obtain ⟨text, rest', rfl, rfl, hother⟩ := local_lexeme c rest kind m hlexeme
          rw [scan_cons hspace hcomment hlexeme, List.drop_left, List.take_left] at hrest
          cases htail : Token.scan rest' with
          | error cause => simp [htail, Except.map] at hrest
          | ok tokens' =>
            rw [htail] at hrest
            rw [Except.ok.inj hrest, ← hline]
            refine .token hgap hspace hcomment hother (ih rest'.length ?_ htail rfl)
            rw [← hn, ← hline]
            simp
            omega

end Token

end Mips
