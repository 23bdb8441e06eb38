import Mips.Source.Text

/-!
# Cutting a text into lines

A text without a line feed is at most one line; behind a line feed the other lines follow
(`lines_feed`). `Text.blank` empties one line of a text and keeps the others, so that every line
behind it keeps its number (`lines_blank`).
-/

namespace Mips

namespace Text

theorem pieces_cons {c : Char} (hc : c ≠ '\n') {cs line : List Char} {rest : List (List Char)}
    (h : pieces cs = line :: rest) : pieces (c :: cs) = (c :: line) :: rest := by
  change (if c = '\n' then _ else _) = _
  rw [if_neg hc]
  simp only [pieces] at h
  rw [h]

theorem pieces_of_not_mem : ∀ {cs : List Char}, '\n' ∉ cs → pieces cs = [cs]
  | [], _ => rfl
  | c :: cs, h => by
    rw [List.mem_cons, not_or] at h
    exact pieces_cons (Ne.symm h.1) (pieces_of_not_mem h.2)

theorem pieces_feed (rest : List Char) : ∀ {line : List Char}, '\n' ∉ line →
    pieces (line ++ '\n' :: rest) = line :: pieces rest
  | [], _ => rfl
  | c :: line, h => by
    rw [List.mem_cons, not_or] at h
    exact pieces_cons (Ne.symm h.1) (pieces_feed rest h.2)

/-- A text is one piece, or a line feed ends its first one. -/
theorem exists_feed (cs : List Char) :
    '\n' ∉ cs ∨ ∃ line rest, cs = line ++ '\n' :: rest ∧ '\n' ∉ line := by
  by_cases h : '\n' ∈ cs
  · exact Or.inr (List.eq_append_cons_of_mem h)
  · exact Or.inl h

theorem pieces_ne_nil (cs : List Char) : pieces cs ≠ [] := by
  rcases exists_feed cs with h | ⟨line, rest, rfl, h⟩
  · simp [pieces_of_not_mem h]
  · simp [pieces_feed rest h]

theorem lines_of_not_mem {cs : List Char} (h : '\n' ∉ cs) :
    lines cs = if cs = [] then [] else [cs] := by
  rw [lines, pieces_of_not_mem h, ofPieces]

theorem length_lines_of_not_mem {cs : List Char} (h : '\n' ∉ cs) : (lines cs).length ≤ 1 := by
  rw [lines_of_not_mem h]
  split <;> simp

theorem lines_feed {line : List Char} (h : '\n' ∉ line) (rest : List Char) :
    lines (line ++ '\n' :: rest) = dropReturn line :: lines rest := by
  rw [lines, pieces_feed rest h, lines]
  cases hrest : pieces rest with
  | nil => exact absurd hrest (pieces_ne_nil rest)
  | cons piece pieces => rw [ofPieces]; simp

/-! ### Emptying a line -/

/-- The text with nothing on the line that has `n` lines before it. -/
def blank : Nat → List Char → List Char
  | 0, cs => cs.dropWhile (· ≠ '\n')
  | _ + 1, [] => []
  | n + 1, c :: cs => c :: blank (if c = '\n' then n else n + 1) cs

theorem dropWhile_not_mem {line : List Char} (h : '\n' ∉ line) (rest : List Char) :
    (line ++ rest).dropWhile (· ≠ '\n') = rest.dropWhile (· ≠ '\n') :=
  List.dropWhile_append_of_pos fun _ hc => decide_eq_true fun heq => h (heq ▸ hc)

theorem blank_zero_of_not_mem {cs : List Char} (h : '\n' ∉ cs) : blank 0 cs = [] := by
  have hdrop := dropWhile_not_mem h []
  rw [List.append_nil] at hdrop
  rw [blank, hdrop]
  rfl

theorem blank_zero_feed {line : List Char} (h : '\n' ∉ line) (rest : List Char) :
    blank 0 (line ++ '\n' :: rest) = '\n' :: rest := by
  rw [blank, dropWhile_not_mem h]
  simp

theorem blank_succ_feed (n : Nat) (rest : List Char) : ∀ {line : List Char}, '\n' ∉ line →
    blank (n + 1) (line ++ '\n' :: rest) = line ++ '\n' :: blank n rest
  | [], _ => by simp [blank]
  | c :: line, h => by
    rw [List.mem_cons, not_or] at h
    rw [List.cons_append, blank, if_neg (Ne.symm h.1), blank_succ_feed n rest h.2]
    rfl

/-- The line is empty, or it was the last one and is gone; all other lines are as before. -/
theorem lines_blank : ∀ {before : List (List Char)} {text : List Char} {after : List (List Char)}
    {cs : List Char}, lines cs = before ++ text :: after →
    lines (blank before.length cs) = before ++ [] :: after ∨
      after = [] ∧ lines (blank before.length cs) = before
  | [], text, after, cs, h => by
    rcases exists_feed cs with hcs | ⟨line, rest, rfl, hline⟩
    · right
      have hone := length_lines_of_not_mem hcs
      rw [h] at hone
      rw [List.length_nil, blank_zero_of_not_mem hcs]
      exact ⟨by simpa using hone, rfl⟩
    · left
      rw [lines_feed hline] at h
      rw [List.length_nil, blank_zero_feed hline]
      have hempty := lines_feed (List.not_mem_nil (a := '\n')) rest
      rw [List.nil_append] at hempty
      rw [hempty, (List.cons.inj h).2]
      rfl
  | line :: before, text, after, cs, h => by
    rcases exists_feed cs with hcs | ⟨line', rest, rfl, hline⟩
    · have hone := length_lines_of_not_mem hcs
      rw [h] at hone
      simp at hone
    · rw [lines_feed hline] at h
      obtain ⟨hfirst, hrest⟩ := List.cons.inj h
      rw [List.length_cons, blank_succ_feed _ _ hline, lines_feed hline, hfirst]
      rcases lines_blank hrest with hblank | ⟨hafter, hblank⟩
      · left
        rw [hblank]
        rfl
      · right
        rw [hblank]
        exact ⟨hafter, rfl⟩

end Text

end Mips
