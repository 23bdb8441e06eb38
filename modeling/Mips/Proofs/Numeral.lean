import Mathlib.Algebra.Ring.Nat
import Mips.Proofs.Lexeme

/-!
# Numerals

A run of name characters that starts with a digit is one token or none. It is a number if it is
`0x` or `0X` and hexadecimal digits, `0b` or `0B` and binary digits, or decimal digits, at least one
of them, and if what it denotes is below `2 ^ 32`. The digits are read from left to right, and the
number so far only grows, so one that ends below the bound is never above it on the way
(`foldlM_addDigit_iff`). Any other run spoils the line it stands in (`numbers_exact`).

    0x00000000ffffffff   0xffffffff
    0b12                 no binary digit
    0x                   no digit
    4294967296           too large
-/

namespace Mips

namespace Token

/-! ### Digits -/

/-- The digit `c`, in either case, has the value `d` to the given base. -/
def IsDigit (base : Nat) (c : Char) (d : Nat) : Prop :=
  d < base ∧ (c = d.digitChar ∨ c = d.digitChar.toUpper)

/-- The digits denote a number to the given base, the most significant digit first. -/
inductive Spells (base : Nat) : List Char → Nat → Prop where
  | last {c : Char} {d : Nat} (h : IsDigit base c d) : Spells base [c] d
  | cons {c : Char} {cs : List Char} {d n : Nat} (h : IsDigit base c d) (hrest : Spells base cs n) :
    Spells base (c :: cs) (d * base ^ cs.length + n)

/-- The run of characters is a number. -/
inductive IsNumeral : List Char → Nat → Prop where
  | marked {x : Char} {base n : Nat} {cs : List Char} (hx : (x, base) ∈ marks)
    (h : Spells base cs n) : IsNumeral ('0' :: x :: cs) n
  | decimal {cs : List Char} {n : Nat} (h : Spells 10 cs n) : IsNumeral cs n

theorem isDigit_of_digit? {base d : Nat} {c : Char} (hbase : base ≤ 16)
    (h : digit? base c = some d) : IsDigit base c d := by
  have hten : ∀ d < 10, Char.ofNat (48 + d) = d.digitChar := by decide
  have hlower : ∀ d < 16, 10 ≤ d → Char.ofNat (87 + d) = d.digitChar := by decide
  have hupper : ∀ d < 16, 10 ≤ d → Char.ofNat (55 + d) = d.digitChar.toUpper := by decide
  obtain ⟨hvalue, hless⟩ := Option.filter_eq_some_iff.1 h
  have hlt : d < base := of_decide_eq_true hless
  refine ⟨hlt, ?_⟩
  rw [← Char.ofNat_toNat c]
  split at hvalue
  · next hdigit =>
    have hlow : 48 ≤ c.toNat := (Char.isDigit_iff_toNat.1 hdigit).1
    have hhigh : c.toNat ≤ 57 := (Char.isDigit_iff_toNat.1 hdigit).2
    have hsub : c.toNat - 48 = d := Option.some.inj hvalue
    rw [show c.toNat = 48 + d by omega]
    exact Or.inl (hten d (by omega))
  · split at hvalue
    · next hcase =>
      have hfirst := (Bool.and_eq_true_iff.1 hcase).1
      have hlow : 97 ≤ c.toNat := UInt32.le_iff_toNat_le.1 (of_decide_eq_true hfirst)
      have hsub : c.toNat - 97 + 10 = d := Option.some.inj hvalue
      rw [show c.toNat = 87 + d by omega]
      exact Or.inl (hlower d (by omega) (by omega))
    · split at hvalue
      · next hcase =>
        have hlow : 65 ≤ c.toNat := UInt32.le_iff_toNat_le.1 (of_decide_eq_true hcase).1
        have hsub : c.toNat - 65 + 10 = d := Option.some.inj hvalue
        rw [show c.toNat = 55 + d by omega]
        exact Or.inr (hupper d (by omega) (by omega))
      · simp at hvalue

theorem digit?_eq_some_iff {base d : Nat} {c : Char} (hbase : base ≤ 16) :
    digit? base c = some d ↔ IsDigit base c d := by
  refine ⟨isDigit_of_digit? hbase, ?_⟩
  rintro ⟨hd, rfl | rfl⟩
  · exact digit?_digitChar hbase hd
  · have hupper : ∀ d < 16, digit? 16 d.digitChar.toUpper = some d := by decide
    have hvalue := Option.filter_eq_some_iff.1 (hupper d (by omega))
    exact Option.filter_eq_some_iff.2 ⟨hvalue.1, decide_eq_true hd⟩

/-! ### Numbers -/

/-- One more digit is read if it is one and the number stays below the bound. -/
theorem addDigit_eq_ok_iff {base acc n : Nat} {c : Char} (hbase : base ≤ 16) :
    addDigit base acc c = .ok n ↔
      ∃ d, IsDigit base c d ∧ n = acc * base + d ∧ n < 2 ^ 32 := by
  simp only [← digit?_eq_some_iff hbase]
  unfold addDigit
  cases digit? base c with
  | none => simp
  | some d =>
    dsimp only
    split
    · next hlt =>
      simp only [Except.ok.injEq, Option.some.injEq]
      refine ⟨fun h => ⟨d, rfl, h.symm, h ▸ hlt⟩, ?_⟩
      rintro ⟨d', rfl, rfl, -⟩
      rfl
    · next hge =>
      simp only [reduceCtorEq, Option.some.injEq, false_iff]
      rintro ⟨d', rfl, rfl, hlt⟩
      exact hge hlt

theorem bind_eq_ok_iff {α β : Type} {x : Except NumberError α} {f : α → Except NumberError β}
    {b : β} : x >>= f = .ok b ↔ ∃ a, x = .ok a ∧ f a = .ok b := by
  cases x with
  | error cause => simp [bind, Except.bind]
  | ok a => simp [bind, Except.bind]

theorem spells_singleton_iff {base n : Nat} {c : Char} :
    Spells base [c] n ↔ IsDigit base c n := by
  refine ⟨fun h => ?_, .last⟩
  cases h with
  | last h => exact h
  | cons _ hrest => cases hrest

theorem spells_cons_iff {base n : Nat} {c c' : Char} {cs : List Char} :
    Spells base (c :: c' :: cs) n ↔
      ∃ d m, IsDigit base c d ∧ Spells base (c' :: cs) m ∧ n = d * base ^ (cs.length + 1) + m := by
  refine ⟨fun h => ?_, ?_⟩
  · cases h with
    | cons h hrest => exact ⟨_, _, h, hrest, rfl⟩
  · rintro ⟨d, m, h, hrest, rfl⟩
    exact .cons h hrest

/-- Reading on from the number `acc` gives the number that the digits denote behind it, if that is
below the bound. On the way there the number is never above it. -/
theorem foldlM_addDigit_iff {base : Nat} (hone : 1 < base) (hbase : base ≤ 16) {c : Char}
    {cs : List Char} {acc n : Nat} :
    (c :: cs).foldlM (addDigit base) acc = .ok n ↔
      ∃ m, Spells base (c :: cs) m ∧ n = acc * base ^ (cs.length + 1) + m ∧ n < 2 ^ 32 := by
  induction cs generalizing c acc with
  | nil =>
    rw [List.foldlM_cons, bind_eq_ok_iff]
    simp only [List.foldlM_nil, addDigit_eq_ok_iff hbase, spells_singleton_iff, List.length_nil,
      Nat.zero_add, Nat.pow_one]
    constructor
    · rintro ⟨a, ha, hn⟩
      cases hn
      exact ha
    · exact fun h => ⟨n, h, rfl⟩
  | cons c' cs ih =>
    rw [List.foldlM_cons, bind_eq_ok_iff]
    simp only [ih, addDigit_eq_ok_iff hbase, spells_cons_iff, List.length_cons]
    have hpos : 0 < base ^ (cs.length + 1) := Nat.pow_pos (by omega)
    have hsplit : ∀ d m, acc * base ^ (cs.length + 1 + 1) + (d * base ^ (cs.length + 1) + m) =
        (acc * base + d) * base ^ (cs.length + 1) + m := by
      intro d m
      rw [Nat.pow_succ' (n := cs.length + 1), Nat.add_mul, Nat.mul_assoc, Nat.add_assoc]
    constructor
    · rintro ⟨a, ⟨d, hd, rfl, -⟩, m, hm, rfl, hlt⟩
      exact ⟨_, ⟨d, m, hd, hm, rfl⟩, (hsplit d m).symm, hlt⟩
    · rintro ⟨_, ⟨d, m, hd, hm, rfl⟩, rfl, hlt⟩
      rw [hsplit] at hlt ⊢
      -- the number so far is at most what comes out
      have hgrown := Nat.le_mul_of_pos_right (acc * base + d) hpos
      exact ⟨_, ⟨d, hd, rfl, by omega⟩, m, hm, rfl, hlt⟩

theorem readNumber_eq_ok_iff {base : Nat} (hone : 1 < base) (hbase : base ≤ 16)
    {digits : List Char} {v : Word} :
    readNumber base digits = .ok v ↔ Spells base digits v.toNat := by
  cases digits with
  | nil =>
    refine iff_of_false (by simp [readNumber]) ?_
    rintro ⟨⟩
  | cons c cs =>
    have hread : readNumber base (c :: cs) =
        ((c :: cs).foldlM (addDigit base) 0).map (BitVec.ofNat 32) := rfl
    have hfold := @foldlM_addDigit_iff base hone hbase c cs 0
    simp only [Nat.zero_mul, Nat.zero_add] at hfold
    rw [hread]
    constructor
    · intro h
      cases hscan : (c :: cs).foldlM (addDigit base) 0 with
      | error cause => simp [hscan, Except.map] at h
      | ok n =>
        rw [hscan] at h
        obtain rfl := Except.ok.inj h
        obtain ⟨m, hm, rfl, hlt⟩ := hfold.1 hscan
        rwa [BitVec.toNat_ofNat, Nat.mod_eq_of_lt hlt]
    · intro h
      rw [hfold.2 ⟨_, h, rfl, v.isLt⟩]
      refine congrArg Except.ok ?_
      rw [BitVec.ofNat_toNat, BitVec.setWidth_eq]

/-! ### Runs of name characters -/

/-- A run of name characters that starts with a digit, and as long as it can be before `rest`. -/
structure Run (run rest : List Char) : Prop where
  digit : ∃ c ∈ run.head?, c.isDigit = true
  chars : ∀ c ∈ run, isNameChar c = true
  apart : Apart rest

/-- What tells a base is no decimal digit. -/
theorem not_spells_mark {x : Char} {base : Nat} (h : (x, base) ∈ marks) (cs : List Char) (n : Nat) :
    ¬ Spells 10 ('0' :: x :: cs) n := by
  have hnone : digit? 10 x = none := by
    rcases mem_marks_iff.1 h with ⟨rfl, -⟩ | ⟨rfl, -⟩ | ⟨rfl, -⟩ | ⟨rfl, -⟩ <;> decide
  have hdigit : ∀ d, ¬ IsDigit 10 x d := by
    intro d
    rw [← digit?_eq_some_iff (by decide), hnone]
    simp
  rintro (_ | ⟨_, hrest⟩)
  cases hrest with
  | last hx => exact hdigit _ hx
  | cons hx _ => exact hdigit _ hx

theorem isNumeral_marked_iff {x : Char} {base n : Nat} {cs : List Char} (hx : (x, base) ∈ marks) :
    IsNumeral ('0' :: x :: cs) n ↔ Spells base cs n := by
  refine ⟨fun h => ?_, .marked hx⟩
  cases h with
  | @marked _ base' _ _ hx' h =>
    have hbase : base' = base := by
      rw [mem_marks_iff] at hx hx'
      rcases hx with ⟨rfl, rfl⟩ | ⟨rfl, rfl⟩ | ⟨rfl, rfl⟩ | ⟨rfl, rfl⟩ <;> simpa using hx'
    rwa [hbase] at h
  | decimal h => exact absurd h (not_spells_mark hx cs n)

theorem isNumeral_decimal_iff {c : Char} {cs : List Char} {n : Nat}
    (h : c = '0' → ∀ x ∈ cs.head?, x ∉ marks.map Prod.fst) :
    IsNumeral (c :: cs) n ↔ Spells 10 (c :: cs) n := by
  refine ⟨fun hnumeral => ?_, .decimal⟩
  cases hnumeral with
  | marked hx _ => exact absurd (List.mem_map_of_mem hx) (h rfl _ rfl)
  | decimal hspells => exact hspells

/-- The base of a run and its digits tell what it denotes. -/
theorem exists_base {c : Char} {cs rest : List Char} (hcs : ∀ x ∈ cs, isNameChar x = true)
    (hrest : Apart rest) :
    ∃ base digits, 1 < base ∧ base ≤ 16 ∧ numeral c (cs ++ rest) = (base, digits, cs.length) ∧
      ∀ n, IsNumeral (c :: cs) n ↔ Spells base digits n := by
  by_cases hmarked : c = '0' ∧ ∃ x ∈ cs.head?, x ∈ marks.map Prod.fst
  · obtain ⟨rfl, _, hx, hmem⟩ := hmarked
    obtain ⟨⟨x, base⟩, hmark, rfl⟩ := List.mem_map.1 hmem
    obtain ⟨digits, rfl⟩ := List.head?_eq_some_iff.1 hx
    have hdigits := takeWhile_apart (fun y hy => hcs y (List.mem_cons_of_mem x hy)) hrest
    obtain ⟨hone, hbase, hnumeral⟩ := numeral_marked hmark (digits ++ rest)
    rw [hdigits] at hnumeral
    exact ⟨base, digits, hone, hbase, hnumeral, fun n => isNumeral_marked_iff hmark⟩
  · have hplain : c = '0' → ∀ x ∈ cs.head?, x ∉ marks.map Prod.fst :=
      fun hzero x hx hmark => hmarked ⟨hzero, x, hx, hmark⟩
    exact ⟨10, c :: cs, by decide, by decide, numeral_unmarked hcs hrest hplain,
      fun n => isNumeral_decimal_iff hplain⟩

/-! ### Positions -/

/-- The next token of a line and what stands behind it, if there is one more. -/
def nextToken (line : List Char) : Except TokenError (Option (Token × List Char)) :=
  match line.dropWhile isSpace with
  | [] => .ok none
  | c :: rest =>
    if c = '#' then .ok none
    else match lexeme c rest with
      | .error cause => .error cause
      | .ok (kind, n) => .ok (some (⟨kind, String.ofList (c :: rest.take n)⟩, rest.drop n))

/-- A line is cut by taking one token after the other. -/
theorem scan_eq_nextToken (line : List Char) :
    scan line = nextToken line >>= fun found =>
      found.elim (.ok []) fun step => (scan step.2).map (step.1 :: ·) := by
  rw [scan]
  unfold nextToken
  split
  · next hnil =>
    rw [hnil]
    rfl
  · next c rest hcons =>
    simp only [hcons]
    split
    · rfl
    · cases lexeme c rest with
      | error cause => rfl
      | ok found => rfl

/-- The first tokens of the line are `tokens`, and behind them stands `rem`. -/
inductive Reaches (line : List Char) : List Token → List Char → Prop where
  | start : Reaches line [] line
  | token {tokens : List Token} {rem rest : List Char} {t : Token} (h : Reaches line tokens rem)
    (hnext : nextToken rem = .ok (some (t, rest))) : Reaches line (tokens ++ [t]) rest

theorem Reaches.scan {line rem : List Char} {tokens : List Token} (h : Reaches line tokens rem) :
    Token.scan line = (Token.scan rem).map (tokens ++ ·) := by
  induction h with
  | start => cases Token.scan line <;> rfl
  | @token tokens rem rest t _ hnext ih =>
    rw [ih, scan_eq_nextToken rem, hnext]
    exact Reads.map_append tokens [t] (Token.scan rest)

/-- The token at a run is the number that its digits are read as. -/
theorem nextToken_run {rem run rest : List Char} (hposition : rem.dropWhile isSpace = run ++ rest)
    (hrun : Run run rest) :
    ∃ base digits, (∀ v, readNumber base digits = .ok v ↔ IsNumeral run v.toNat) ∧
      (∀ v, readNumber base digits = .ok v →
        nextToken rem = .ok (some (⟨.number v, String.ofList run⟩, rest))) ∧
      ∀ cause, readNumber base digits = .error cause →
        nextToken rem = .error (.number (String.ofList digits) cause) := by
  obtain ⟨⟨c, hhead, hc⟩, hchars, hrest⟩ := hrun
  obtain ⟨cs, rfl⟩ := List.head?_eq_some_iff.1 hhead
  have hcs : ∀ x ∈ cs, isNameChar x = true := fun x hx => hchars x (List.mem_cons_of_mem c hx)
  have hcomment : c ≠ '#' := (solid_of_isNameChar (hchars c List.mem_cons_self)).2.1
  obtain ⟨base, digits, hone, hbase, hnumeral, hvalue⟩ := exists_base (c := c) hcs hrest
  refine ⟨base, digits, fun v => ?_, fun v hread => ?_, fun cause hread => ?_⟩
  · rw [readNumber_eq_ok_iff hone hbase, hvalue]
  · simp only [nextToken, hposition, List.cons_append, if_neg hcomment,
      Reads.lexeme_digit hc hnumeral hread, List.take_left, List.drop_left]
  · have hlexeme : lexeme c (cs ++ rest) = .error (.number (String.ofList digits) cause) := by
      simp only [lexeme, isNameStart_of_isDigit hc, hc, hnumeral, hread]
      rfl
    simp only [nextToken, hposition, List.cons_append, if_neg hcomment, hlexeme]

end Token

namespace Line

/-- A line that cannot be cut into tokens is dropped, with one error about its tokens. -/
theorem read_of_scan_error {text line : List Char} {cause : TokenError}
    (htext : (splitLabel text).2 = line) (h : Token.scan line = .error cause) (number : Nat) :
    (read number text).1 = none ∧
      (read number text).2.filter (fun p => p.kind = .badToken) = [.token cause] := by
  have hread : read number text = (none, (legalLabel (splitLabel text).1).2 ++ [.token cause]) := by
    simp only [read, htext, h]
  have hlabel : (legalLabel (splitLabel text).1).2.filter (fun p => p.kind = .badToken) = [] := by
    rw [List.filter_eq_nil_iff]
    intro problem hmem
    obtain ⟨name, rfl⟩ := illegalLabel_of_mem_legalLabel hmem
    simp [Problem.kind]
  rw [hread]
  refine ⟨rfl, ?_⟩
  rw [List.filter_append, hlabel]
  rfl

end Line

namespace Token

/-- A run of name characters that starts with a digit, where a token is due, is read as a token
exactly if it is a number below `2 ^ 32`, and the token is that number. Otherwise the line it stands
in has no tokens, and is dropped with one error. -/
theorem numbers_exact {line rem run rest : List Char} {tokens : List Token}
    (hreach : Reaches line tokens rem) (hposition : rem.dropWhile isSpace = run ++ rest)
    (hrun : Run run rest) :
    (∀ t rest', nextToken rem = .ok (some (t, rest')) ↔
      ∃ n, IsNumeral run n ∧ n < 2 ^ 32 ∧
        t = ⟨.number (BitVec.ofNat 32 n), String.ofList run⟩ ∧ rest' = rest) ∧
    (∀ n, IsNumeral run n → n < 2 ^ 32 →
      scan line = (scan rest).map
        (tokens ++ [⟨.number (BitVec.ofNat 32 n), String.ofList run⟩] ++ ·)) ∧
    ((∀ n, IsNumeral run n → 2 ^ 32 ≤ n) →
      ∃ cause, scan line = .error cause ∧
        ∀ number text, (Line.splitLabel text).2 = line →
          (Line.read number text).1 = none ∧
          (Line.read number text).2.filter (fun p => p.kind = .badToken) = [.token cause] ∧
          (Problem.token cause).severity = .error) := by
  obtain ⟨base, digits, hvalue, hok, herror⟩ := nextToken_run hposition hrun
  have hword : ∀ n, n < 2 ^ 32 → (BitVec.ofNat 32 n).toNat = n := by
    intro n hn
    rw [BitVec.toNat_ofNat, Nat.mod_eq_of_lt hn]
  have hnext : ∀ n, IsNumeral run n → n < 2 ^ 32 → nextToken rem =
      .ok (some (⟨.number (BitVec.ofNat 32 n), String.ofList run⟩, rest)) := by
    intro n hn hlt
    exact hok _ ((hvalue _).2 (by rwa [hword n hlt]))
  refine ⟨fun t rest' => ⟨fun h => ?_, ?_⟩, fun n hn hlt => ?_, fun hlarge => ?_⟩
  · cases hread : readNumber base digits with
    | error cause => simp [herror cause hread] at h
    | ok v =>
      rw [hok v hread] at h
      obtain ⟨rfl, rfl⟩ := Prod.mk.inj (Option.some.inj (Except.ok.inj h))
      refine ⟨v.toNat, (hvalue v).1 hread, v.isLt, ?_, rfl⟩
      rw [BitVec.ofNat_toNat, BitVec.setWidth_eq]
  · rintro ⟨n, hn, hlt, rfl, rfl⟩
    exact hnext n hn hlt
  · exact (hreach.token (hnext n hn hlt)).scan
  · cases hread : readNumber base digits with
    | ok v => exact absurd (hlarge _ ((hvalue v).1 hread)) (Nat.not_le.2 v.isLt)
    | error cause =>
      have hscan : scan line = .error (.number (String.ofList digits) cause) := by
        rw [hreach.scan, scan_eq_nextToken, herror cause hread]
        rfl
      refine ⟨_, hscan, fun number text htext => ?_⟩
      obtain ⟨hdropped, hproblems⟩ := Line.read_of_scan_error htext hscan number
      exact ⟨hdropped, hproblems, rfl⟩

/-- The largest number is read behind any zeros, and the one after it spoils the line. -/
theorem word_then_overflow :
    nextToken " 0x00000fFfFfFfF, 04294967296".toList =
        .ok (some (⟨.number 0xffffffff, "0x00000fFfFfFfF"⟩, ", 04294967296".toList)) ∧
      ∃ cause, scan " .word 0x00000fFfFfFfF, 04294967296".toList = .error cause ∧
        (Line.read 7 "a: .word 0x00000fFfFfFfF, 04294967296".toList).1 = none := by
  have hword : Reaches " .word 0x00000fFfFfFfF, 04294967296".toList
      [⟨.directive "word", ".word"⟩] " 0x00000fFfFfFfF, 04294967296".toList :=
    Reaches.start.token (by decide +kernel)
  have hrun : Run "0x00000fFfFfFfF".toList ", 04294967296".toList :=
    ⟨⟨'0', rfl, by decide⟩, List.all_eq_true.1 (by decide +kernel), by rintro c ⟨⟩; decide⟩
  have hlargest : IsNumeral "0x00000fFfFfFfF".toList 0xffffffff :=
    .marked (mem_marks_iff.2 (Or.inl ⟨rfl, rfl⟩))
      ((readNumber_eq_ok_iff (v := 0xffffffff) (by decide) (by decide)).1 (by decide +kernel))
  have hnext : nextToken " 0x00000fFfFfFfF, 04294967296".toList =
      .ok (some (⟨.number 0xffffffff, "0x00000fFfFfFfF"⟩, ", 04294967296".toList)) :=
    ((numbers_exact hword (by decide +kernel) hrun).1 _ _).2
      ⟨0xffffffff, hlargest, by decide, rfl, rfl⟩
  have hcomma : Reaches " .word 0x00000fFfFfFfF, 04294967296".toList
      [⟨.directive "word", ".word"⟩, ⟨.number 0xffffffff, "0x00000fFfFfFfF"⟩, ⟨.comma, ","⟩]
      " 04294967296".toList := (hword.token hnext).token (by decide +kernel)
  have hlarge : ∀ n, IsNumeral "04294967296".toList n → 2 ^ 32 ≤ n := by
    intro n hn
    refine Nat.le_of_not_lt fun hlt => ?_
    have hspells : Spells 10 "04294967296".toList (BitVec.ofNat 32 n).toNat := by
      rw [BitVec.toNat_ofNat, Nat.mod_eq_of_lt hlt]
      exact (isNumeral_decimal_iff (by rintro - x ⟨⟩; decide)).1 hn
    have hread := (readNumber_eq_ok_iff (by decide) (by decide)).2 hspells
    have herror : readNumber 10 "04294967296".toList = .error .tooLarge := by decide +kernel
    rw [herror] at hread
    cases hread
  have hrun' : Run "04294967296".toList [] :=
    ⟨⟨'0', rfl, by decide⟩, List.all_eq_true.1 (by decide +kernel), apart_nil⟩
  obtain ⟨cause, hscan, hline⟩ := (numbers_exact hcomma (by decide +kernel) hrun').2.2 hlarge
  exact ⟨hnext, cause, hscan, (hline 7 _ (by decide +kernel)).1⟩

end Token

end Mips
