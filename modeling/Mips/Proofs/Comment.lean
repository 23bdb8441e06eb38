import Mips.Proofs.Inline
import Mips.Proofs.Isolation

/-!
# Comments

A comment stands at the end of a line and may hold anything. Two readers have to pass over it: the
search for a label stops at its `#`, and so does the one for tokens. The tokens before it do not
change either, because a `#` ends them where the end of the line did. So a line that can be cut into
tokens gives the same with a comment behind it, and so does the source.

    loop:  addi $t0, step, 1
    loop:  addi $t0, step, 1# step: 4, "#"
-/

namespace Mips

namespace Token

/-- A `#` goes on with no name, and neither does the end of a line. -/
theorem endsLike_comment (rest note : List Char) : EndsLike (rest ++ '#' :: note) rest := by
  cases rest with
  | nil =>
    refine ⟨fun _ c hc => ?_, fun _ c hc => ?_⟩
    · rw [← Option.some.inj hc]
      decide
    · rw [← Option.some.inj hc]
      decide
  | cons c rest => exact .of_head? rfl

theorem Cut.append_comment {line : List Char} {tokens : List Token} (h : Cut line tokens)
    (note : List Char) : Cut (line ++ '#' :: note) tokens := by
  induction h with
  | finish hgap => exact .comment note hgap
  | comment rest hgap =>
    rw [List.append_assoc, List.cons_append]
    exact .comment (rest ++ '#' :: note) hgap
  | @token gap c text rest kind tokens hgap hspace hcomment hlexeme _ ih =>
    have hends := endsLike_comment rest note
    rw [List.append_assoc, List.cons_append, List.append_assoc]
    exact .token hgap hspace hcomment (fun other hother => hlexeme other (hother.trans hends)) ih

end Token

/-! ### Lines -/

namespace Line

/-- A colon in a comment ends no label. -/
theorem splitLabel_comment (text note : List Char) :
    splitLabel (text ++ '#' :: note) =
      ((splitLabel text).1, (splitLabel text).2 ++ '#' :: note) := by
  rcases splitLabel_cases text with ⟨before, rest, rfl, hbefore⟩ | ⟨hfind, hnone⟩
  · rw [List.append_assoc, List.cons_append, splitLabel_colon hbefore, splitLabel_colon hbefore]
  · rw [hnone]
    rcases splitLabel_cases (text ++ '#' :: note) with ⟨before, rest, hsplit, hbefore⟩ | ⟨-, hlabel⟩
    · -- the first mark would be a colon, but it is in `text` or is the `#`
      have hcolon : (text ++ '#' :: note).find? stopsLabel = some ':' := by
        rw [hsplit]
        refine List.find?_eq_some_iff_append.2 ⟨by decide, before, rest, rfl, fun c hc => ?_⟩
        simp [hbefore c hc]
      have hmark : ('#' :: note).find? stopsLabel = some '#' := rfl
      rw [List.find?_append, hmark] at hcolon
      cases htext : text.find? stopsLabel with
      | none => simp [htext] at hcolon
      | some c =>
        rw [htext] at hcolon hfind
        exact absurd hcolon hfind
    · exact hlabel

/-- A line that can be cut into tokens is read as if it had no comment. -/
theorem read_comment {text : List Char} {tokens : List Token}
    (h : Token.scan (splitLabel text).2 = .ok tokens) (n : Nat) (note : List Char) :
    read n (text ++ '#' :: note) = read n text := by
  have hscan : Token.scan ((splitLabel text).2 ++ '#' :: note) = .ok tokens :=
    ((Token.cut_of_scan h).append_comment note).scan
  simp only [read, splitLabel_comment, hscan, h]

/-- A line that cannot be cut into tokens says so. -/
theorem exists_scan {n : Nat} {text : List Char}
    (h : ∀ problem ∈ (read n text).2, problem.kind ≠ .badToken) :
    ∃ tokens, Token.scan (splitLabel text).2 = .ok tokens := by
  cases hscan : Token.scan (splitLabel text).2 with
  | ok tokens => exact ⟨tokens, rfl⟩
  | error cause =>
    have hmem : Problem.token cause ∈ (read n text).2 := by simp [read, hscan]
    exact absurd rfl (h _ hmem)

end Line

/-! ### Texts -/

namespace Text

/-- The text with a comment behind the line that has `n` lines before it. The comment stands before
the line feed that ends the line, and before the carriage return that belongs to it. -/
def comment (note : List Char) : Nat → List Char → List Char
  | 0, cs =>
    let line := cs.takeWhile (· ≠ '\n')
    match cs.dropWhile (· ≠ '\n') with
    | [] => line ++ '#' :: note
    | rest => dropReturn line ++ '#' :: note ++ line.drop (dropReturn line).length ++ rest
  | _ + 1, [] => []
  | n + 1, c :: cs => c :: comment note (if c = '\n' then n else n + 1) cs

section

variable {line note : List Char}

theorem takeWhile_not_mem (h : '\n' ∉ line) (rest : List Char) :
    (line ++ rest).takeWhile (· ≠ '\n') = line ++ rest.takeWhile (· ≠ '\n') :=
  List.takeWhile_append_of_pos fun _ hc => decide_eq_true fun heq => h (heq ▸ hc)

theorem comment_zero_of_not_mem (h : '\n' ∉ line) : comment note 0 line = line ++ '#' :: note := by
  have htake := takeWhile_not_mem h []
  have hdrop := dropWhile_not_mem h []
  rw [List.append_nil, List.takeWhile_nil, List.append_nil] at htake
  rw [List.append_nil, List.dropWhile_nil] at hdrop
  simp only [comment, htake, hdrop]

theorem comment_zero_feed (h : '\n' ∉ line) (rest : List Char) :
    comment note 0 (line ++ '\n' :: rest) =
      dropReturn line ++ '#' :: (note ++ line.drop (dropReturn line).length) ++ '\n' :: rest := by
  have htake := takeWhile_not_mem h ('\n' :: rest)
  have hdrop := dropWhile_not_mem h ('\n' :: rest)
  rw [List.takeWhile_cons_of_neg (by simp), List.append_nil] at htake
  rw [List.dropWhile_cons_of_neg (by simp)] at hdrop
  simp only [comment, htake, hdrop, List.append_assoc, List.cons_append]

theorem comment_succ_feed (n : Nat) (rest : List Char) (h : '\n' ∉ line) :
    comment note (n + 1) (line ++ '\n' :: rest) = line ++ '\n' :: comment note n rest := by
  induction line with
  | nil => simp [comment]
  | cons c line ih =>
    rw [List.mem_cons, not_or] at h
    rw [List.cons_append, comment, if_neg (Ne.symm h.1), ih h.2]
    rfl

/-- The end of the line is put behind the comment, and taken off again. Before a line feed alone, a
carriage return at the end of the comment goes with it. -/
theorem exists_note (line note : List Char) :
    ∃ note', (note' = note ∨ note' ++ ['\r'] = note) ∧
      dropReturn (dropReturn line ++ '#' :: (note ++ line.drop (dropReturn line).length)) =
        dropReturn line ++ '#' :: note' := by
  by_cases hline : line.getLast? = some '\r'
  · obtain ⟨front, rfl⟩ := List.getLast?_eq_some_iff.1 hline
    refine ⟨note, Or.inl rfl, ?_⟩
    rw [dropReturn_return, List.drop_left, ← List.cons_append, ← List.append_assoc,
      dropReturn_return]
  · have hkept : dropReturn line = line := if_neg hline
    rw [hkept, List.drop_length, List.append_nil]
    by_cases hnote : note.getLast? = some '\r'
    · obtain ⟨note', rfl⟩ := List.getLast?_eq_some_iff.1 hnote
      refine ⟨note', Or.inr rfl, ?_⟩
      rw [← List.cons_append, ← List.append_assoc, dropReturn_return]
    · refine ⟨note, Or.inl rfl, if_neg ?_⟩
      cases note with
      | nil => simp
      | cons c note => simpa using hnote

end

/-- The line has a comment behind it, and all other lines are as before. -/
theorem lines_comment {note : List Char} (hnote : '\n' ∉ note) {before : List (List Char)}
    {text : List Char} {after : List (List Char)} {cs : List Char}
    (h : lines cs = before ++ text :: after) :
    ∃ note', (note' = note ∨ note' ++ ['\r'] = note) ∧
      lines (comment note before.length cs) = before ++ (text ++ '#' :: note') :: after := by
  induction before generalizing cs with
  | nil =>
    rcases exists_feed cs with hcs | ⟨line, rest, rfl, hline⟩
    · -- a line without an end is the last one
      have hnew : '\n' ∉ cs ++ '#' :: note := by simp [hcs, hnote]
      rw [lines_of_not_mem hcs] at h
      split at h
      · simp at h
      · obtain ⟨rfl, rfl⟩ := List.cons.inj h
        refine ⟨note, Or.inl rfl, ?_⟩
        rw [List.length_nil, comment_zero_of_not_mem hcs, lines_of_not_mem hnew]
        simp
    · have hnew :
          '\n' ∉ dropReturn line ++ '#' :: (note ++ line.drop (dropReturn line).length) := by
        obtain ⟨hkept, hend⟩ := feed_not_mem_return hline
        simp [hkept, hnote, hend]
      rw [lines_feed hline] at h
      obtain ⟨rfl, rfl⟩ := List.cons.inj h
      obtain ⟨note', hnote', hdrop⟩ := exists_note line note
      refine ⟨note', hnote', ?_⟩
      rw [List.length_nil, comment_zero_feed hline, lines_feed hnew, hdrop]
      rfl
  | cons first before ih =>
    rcases exists_feed cs with hcs | ⟨line, rest, rfl, hline⟩
    · have hone := length_lines_of_not_mem hcs
      rw [h] at hone
      simp at hone
    · rw [lines_feed hline] at h
      obtain ⟨rfl, hrest⟩ := List.cons.inj h
      obtain ⟨note', hnote', hlines⟩ := ih hrest
      refine ⟨note', hnote', ?_⟩
      rw [List.length_cons, comment_succ_feed _ _ hline, lines_feed hline, hlines]
      rfl

end Text

/-! ### Sources -/

namespace Source

/-- The source with a comment behind the line that has `n` lines before it. -/
def comment (n : Nat) (note source : String) : String :=
  String.ofList (Text.comment note.toList n source.toList)

theorem read_comment {source source' : String} {before : List (List Char)} {text : List Char}
    {after : List (List Char)} {tokens : List Token} {note : List Char}
    (hsource : Text.lines source.toList = before ++ text :: after)
    (hsource' : Text.lines source'.toList = before ++ (text ++ '#' :: note) :: after)
    (hscan : Token.scan (Line.splitLabel text).2 = .ok tokens) : read source' = read source := by
  simp only [read_eq, hsource, hsource', linesFrom_append, reportFrom_append, linesFrom, reportFrom,
    Line.read_comment hscan]

end Source

/-- A comment behind a line that can be cut into tokens changes nothing, whatever it holds. -/
theorem comment_assemble (source : String) (settings : Settings) {before : List (List Char)}
    {text : List Char} {after : List (List Char)} {note : String}
    (hsource : Text.lines source.toList = before ++ text :: after) (hnote : '\n' ∉ note.toList) :
    ∃ a note', assemble source settings = .ok a ∧
      (note' = note.toList ∨ note' ++ ['\r'] = note.toList) ∧
      Text.lines (Source.comment before.length note source).toList =
        before ++ (text ++ '#' :: note') :: after ∧
      ((∀ problem ∈ a.problemsAt (before.length + 1), problem.kind ≠ .badToken) →
        assemble (Source.comment before.length note source) settings = .ok a) := by
  obtain ⟨a, hassemble⟩ := exists_assembly source settings
  obtain ⟨note', hnote', hlines⟩ := Text.lines_comment hnote hsource
  have hsource' : Text.lines (Source.comment before.length note source).toList =
      before ++ (text ++ '#' :: note') :: after := by
    rw [Source.comment, String.toList_ofList, hlines]
  refine ⟨a, note', hassemble, hnote', hsource', fun hclean => ?_⟩
  have hread : ∀ problem ∈ (Line.read (before.length + 1) text).2, problem.kind ≠ .badToken := by
    intro problem hmem
    refine hclean problem (Assembly.mem_problemsAt.2 ?_)
    have hreport : ⟨before.length + 1, problem⟩ ∈ (Source.read source).diagnostics := by
      rw [(Source.read_around hsource).2]
      exact List.mem_append_left _ (List.mem_append_right _ (List.mem_map.2 ⟨problem, hmem, rfl⟩))
    rw [diagnostics_assemble hassemble rfl, Diagnostic.mem_byLine]
    simp only [List.mem_append, hreport, true_or]
  obtain ⟨tokens, hscan⟩ := Line.exists_scan hread
  rw [← hassemble, assemble, assemble, Source.read_comment hsource hsource' hscan]

/-- A label, a definition, an open string and a `#` in a comment, before a carriage return. The
warning of the line stays. -/
theorem comment_before_return :
    ∃ a, assemble "x: b far\r\n.ascii \"#\"\r\n" {} = .ok a ∧
      a.problemsAt 1 = [.undefinedSymbol "far"] ∧
      assemble "x: b far# x: far = \"#\r\n.ascii \"#\"\r\n" {} = .ok a := by
  obtain ⟨a, -, ha, -, -, hinert⟩ := @comment_assemble "x: b far\r\n.ascii \"#\"\r\n" {} []
    "x: b far".toList [".ascii \"#\"".toList] " x: far = \"#" (by decide +kernel) (by decide)
  have hcomment : Source.comment 0 " x: far = \"#" "x: b far\r\n.ascii \"#\"\r\n" =
      "x: b far# x: far = \"#\r\n.ascii \"#\"\r\n" := by decide +kernel
  have hgiven : (assemble "x: b far\r\n.ascii \"#\"\r\n" {}).toOption.map (·.problemsAt 1) =
      some [.undefinedSymbol "far"] := by decide +kernel
  rw [ha] at hgiven
  have hproblems : a.problemsAt 1 = [.undefinedSymbol "far"] := Option.some.inj hgiven
  refine ⟨a, ha, hproblems, ?_⟩
  rw [← hcomment]
  refine hinert fun problem hmem => ?_
  rw [List.length_nil, hproblems] at hmem
  rw [List.mem_singleton.1 hmem]
  decide

end Mips
