import Mips.Source.Line

/-!
# The lines of a source

A source is read line by line, and what a line gives depends on its number and its characters only.
The lines that are kept go up by number, so a number tells which line is meant, and what is wrong
with a text is reported under its number.

    texts      before ++ text :: after
    lines      linesFrom 1 before ++ read (before.length + 1) text ++ linesFrom ... after
-/

namespace Mips

namespace Line

/-! ### One line -/

theorem number_read {n : Nat} {text : List Char} {line : Line} (h : (read n text).1 = some line) :
    line.number = n := by
  unfold read at h
  dsimp only at h
  split at h
  · simp at h
  · split at h
    · rw [← Option.some.inj h]
    · rw [← Option.some.inj h]

theorem illegalLabel_of_mem_legalLabel {name : Option (List Char)} {problem : Problem}
    (h : problem ∈ (legalLabel name).2) : ∃ name, problem = .illegalLabel name := by
  unfold legalLabel at h
  split at h
  · simp at h
  · split at h
    · simp at h
    · exact ⟨_, List.mem_singleton.1 h⟩

/-- Where a line has a statement, only its label can be wrong. -/
theorem illegalLabel_of_mem_read {n : Nat} {text : List Char} {line : Line} {s : Statement}
    {problem : Problem} (h : (read n text).1 = some line) (hs : line.statement = some s)
    (hmem : problem ∈ (read n text).2) : ∃ name, problem = .illegalLabel name := by
  unfold read at h hmem
  dsimp only at h hmem
  split at h
  · simp at h
  · next tokens htokens =>
    rw [htokens] at hmem
    dsimp only at hmem
    split at h
    · next hstatement =>
      rw [hstatement] at hmem
      exact illegalLabel_of_mem_legalLabel hmem
    · rw [← Option.some.inj h] at hs
      simp at hs

theorem scan_nil : Token.scan [] = .ok [] := by
  rw [Token.scan]
  rfl

theorem read_nil (n : Nat) : read n [] = (some ⟨n, none, none⟩, []) := by
  simp only [read, splitLabel, List.dropWhile_nil, legalLabel, scan_nil, statement?]

end Line

namespace Source

/-! ### All lines -/

/-- The lines among `texts`, of which the first has the number `n`. -/
def linesFrom : Nat → List (List Char) → List Line
  | _, [] => []
  | n, text :: texts => (Line.read n text).1.toList ++ linesFrom (n + 1) texts

/-- What is wrong with `texts`, of which the first has the number `n`. -/
def reportFrom : Nat → List (List Char) → List Diagnostic
  | _, [] => []
  | n, text :: texts => (Line.read n text).2.map (⟨n, ·⟩) ++ reportFrom (n + 1) texts

theorem readings_eq : ∀ (texts : List (List Char)) (n : Nat),
    ((texts.zipIdx n).map fun (text, i) => (i + 1, Line.read (i + 1) text)).filterMap (·.2.1) =
        linesFrom (n + 1) texts ∧
      (((texts.zipIdx n).map fun (text, i) => (i + 1, Line.read (i + 1) text)).flatMap
        fun (number, _, problems) => problems.map (⟨number, ·⟩)) = reportFrom (n + 1) texts
  | [], _ => ⟨rfl, rfl⟩
  | text :: texts, n => by
    obtain ⟨hlines, hreport⟩ := readings_eq texts (n + 1)
    simp only [List.zipIdx_cons, List.map_cons, List.flatMap_cons, linesFrom, reportFrom]
    refine ⟨?_, by rw [hreport]⟩
    cases hread : (Line.read (n + 1) text).1 with
    | none =>
      simp only [List.filterMap_cons, hread]
      exact hlines
    | some line =>
      simp only [List.filterMap_cons, hread]
      exact congrArg (line :: ·) hlines

theorem lines_read (source : String) :
    (read source).lines = linesFrom 1 (Text.lines source.toList) :=
  (readings_eq (Text.lines source.toList) 0).1

theorem diagnostics_read (source : String) :
    (read source).diagnostics = reportFrom 1 (Text.lines source.toList) :=
  (readings_eq (Text.lines source.toList) 0).2

theorem read_eq (source : String) : read source =
    ⟨linesFrom 1 (Text.lines source.toList), reportFrom 1 (Text.lines source.toList)⟩ := by
  rw [← lines_read, ← diagnostics_read]

theorem linesFrom_append : ∀ (texts texts' : List (List Char)) (n : Nat),
    linesFrom n (texts ++ texts') = linesFrom n texts ++ linesFrom (n + texts.length) texts'
  | [], _, _ => rfl
  | text :: texts, texts', n => by
    rw [List.cons_append, linesFrom, linesFrom, linesFrom_append texts texts' (n + 1),
      List.append_assoc, List.length_cons, Nat.add_right_comm, Nat.add_assoc]

theorem reportFrom_append : ∀ (texts texts' : List (List Char)) (n : Nat),
    reportFrom n (texts ++ texts') = reportFrom n texts ++ reportFrom (n + texts.length) texts'
  | [], _, _ => rfl
  | text :: texts, texts', n => by
    rw [List.cons_append, reportFrom, reportFrom, reportFrom_append texts texts' (n + 1),
      List.append_assoc, List.length_cons, Nat.add_right_comm, Nat.add_assoc]

/-! ### Numbers -/

theorem number_of_mem_linesFrom {line : Line} : ∀ {texts : List (List Char)} {n : Nat},
    line ∈ linesFrom n texts → n ≤ line.number ∧ line.number < n + texts.length
  | [], _, h => by simp [linesFrom] at h
  | text :: texts, n, h => by
    rw [List.length_cons]
    rcases List.mem_append.1 h with h | h
    · rw [Line.number_read (Option.mem_toList.1 h)]
      omega
    · have := number_of_mem_linesFrom h
      omega

theorem line_of_mem_reportFrom {d : Diagnostic} : ∀ {texts : List (List Char)} {n : Nat},
    d ∈ reportFrom n texts → n ≤ d.line ∧ d.line < n + texts.length
  | [], _, h => by simp [reportFrom] at h
  | text :: texts, n, h => by
    rw [List.length_cons]
    rcases List.mem_append.1 h with h | h
    · obtain ⟨problem, -, rfl⟩ := List.mem_map.1 h
      dsimp only
      omega
    · have := line_of_mem_reportFrom h
      omega

/-- What is wrong was found in one of the texts. -/
theorem exists_of_mem_reportFrom {d : Diagnostic} {texts : List (List Char)} {n : Nat}
    (h : d ∈ reportFrom n texts) : ∃ text ∈ texts, d.problem ∈ (Line.read d.line text).2 := by
  induction texts generalizing n with
  | nil => simp [reportFrom] at h
  | cons text texts ih =>
    rcases List.mem_append.1 h with h | h
    · obtain ⟨problem, hproblem, rfl⟩ := List.mem_map.1 h
      exact ⟨text, List.mem_cons_self, hproblem⟩
    · obtain ⟨text', htext, hproblem⟩ := ih h
      exact ⟨text', List.mem_cons_of_mem _ htext, hproblem⟩

/-- The lines of a source go up by number. -/
theorem pairwise_linesFrom : ∀ (texts : List (List Char)) (n : Nat),
    (linesFrom n texts).Pairwise (·.number < ·.number)
  | [], _ => List.Pairwise.nil
  | text :: texts, n => by
    refine List.pairwise_append.2 ⟨?_, pairwise_linesFrom texts (n + 1), ?_⟩
    · cases (Line.read n text).1 with
      | none => exact List.Pairwise.nil
      | some line => exact List.pairwise_singleton _ _
    · intro x hx y hy
      rw [Line.number_read (Option.mem_toList.1 hx)]
      exact (number_of_mem_linesFrom hy).1

/-- The text of a line stands where its number says. -/
theorem exists_text {line : Line} : ∀ {texts : List (List Char)} {n : Nat},
    line ∈ linesFrom n texts →
    ∃ before text after, texts = before ++ text :: after ∧ line.number = n + before.length ∧
      (Line.read line.number text).1 = some line
  | [], _, h => by simp [linesFrom] at h
  | text :: texts, n, h => by
    rcases List.mem_append.1 h with h | h
    · have hread := Option.mem_toList.1 h
      refine ⟨[], text, texts, rfl, Line.number_read hread, ?_⟩
      rw [Line.number_read hread]
      exact hread
    · obtain ⟨before, text', after, rfl, hnumber, hread⟩ := exists_text h
      refine ⟨text :: before, text', after, rfl, ?_, hread⟩
      rw [hnumber, List.length_cons]
      omega

/-- What is reported under the number of a text was found in it. -/
theorem filter_reportFrom (before : List (List Char)) (text : List Char)
    (after : List (List Char)) (n : Nat) :
    (reportFrom n (before ++ text :: after)).filter (·.line = n + before.length) =
      (Line.read (n + before.length) text).2.map (⟨n + before.length, ·⟩) := by
  have hbefore : (reportFrom n before).filter (·.line = n + before.length) = [] := by
    refine List.filter_eq_nil_iff.2 fun d hd => ?_
    have := line_of_mem_reportFrom hd
    simp
    omega
  have hafter : (reportFrom (n + before.length + 1) after).filter
      (·.line = n + before.length) = [] := by
    refine List.filter_eq_nil_iff.2 fun d hd => ?_
    have := line_of_mem_reportFrom hd
    simp
    omega
  have hown : ((Line.read (n + before.length) text).2.map
      (fun problem => (⟨n + before.length, problem⟩ : Diagnostic))).filter
        (·.line = n + before.length) =
      (Line.read (n + before.length) text).2.map (⟨n + before.length, ·⟩) := by
    refine List.filter_eq_self.2 fun d hd => ?_
    obtain ⟨problem, -, rfl⟩ := List.mem_map.1 hd
    simp
  rw [reportFrom_append, reportFrom, List.filter_append, List.filter_append, hbefore, hafter, hown,
    List.nil_append, List.append_nil]

end Source

end Mips
