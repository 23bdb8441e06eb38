import Mips.Assembly.Directive

/-!
# What reading can find

What is wrong with a line before it is placed is about its label, its tokens or its first token
(`Line.concernsLine_read`), and what is wrong with a directive is about that directive: the problem
says its name, or no other directive has it (`Directive.concerns_read`). Whether a section has room
and whether some line declares a name are no questions about one line, and neither is asked then.
-/

namespace Mips

namespace Problem

/-- Whether a problem is about the room in a section or the declarations of a source. -/
def isLate : Problem → Bool
  | .overflow _ | .undefinedSymbol _ => true
  | _ => false

/-- Whether a problem is found while a line is cut into its label and its statement. -/
def concernsLine : Problem → Bool
  | .token _ | .notStatement _ | .illegalLabel _ => true
  | _ => false

/-- Whether a problem is one of the directive `name`. -/
def concerns (name : String) : Problem → Bool
  | .unknownDirective d | .argumentCount d _ _ | .argumentNotKnown d | .argumentExpression d _
  | .noValue d | .noString d | .valueNotKnown d | .valueExpression d _ | .notString d => d == name
  | .notSymbolName | .illegalSymbol _ => name == "globl"
  | .alignToZero | .alignBeyond _ _ => name == "align"
  | .reserveBeyond _ _ => name == "space"
  | .dataCut _ _ => name == "word" || name == "half" || name == "byte"
  | _ => false

theorem isLate_of_concernsLine {problem : Problem} (h : problem.concernsLine = true) :
    problem.isLate = false := by
  cases problem with
  | overflow place => simp [concernsLine] at h
  | undefinedSymbol name => simp [concernsLine] at h
  | _ => rfl

theorem isLate_of_concerns {problem : Problem} {name : String}
    (h : problem.concerns name = true) : problem.isLate = false := by
  cases problem with
  | overflow place => simp [concerns] at h
  | undefinedSymbol name => simp [concerns] at h
  | _ => rfl

end Problem

namespace Line

theorem concernsLine_legalLabel (name : Option (List Char)) :
    ∀ problem ∈ (legalLabel name).2, problem.concernsLine = true := by
  intro problem hmem
  unfold legalLabel at hmem
  split at hmem
  · simp at hmem
  · split at hmem
    · simp at hmem
    · rw [List.mem_singleton.1 hmem]
      rfl

theorem concernsLine_statement? {tokens : List Token} {problem : Problem}
    (h : statement? tokens = .error problem) : problem.concernsLine = true := by
  unfold statement? at h
  split at h
  · simp at h
  · split at h
    · simp at h
    · simp at h
    · simp at h
    · rw [← Except.error.inj h]
      rfl

theorem concernsLine_read (n : Nat) (text : List Char) :
    ∀ problem ∈ (read n text).2, problem.concernsLine = true := by
  intro problem hmem
  unfold read at hmem
  dsimp only at hmem
  split at hmem
  · rcases List.mem_append.1 hmem with hlabel | htoken
    · exact concernsLine_legalLabel _ problem hlabel
    · rw [List.mem_singleton.1 htoken]
      rfl
  · split at hmem
    · exact concernsLine_legalLabel _ problem hmem
    · next cause hstatement =>
      rcases List.mem_append.1 hmem with hlabel | hcause
      · exact concernsLine_legalLabel _ problem hlabel
      · rw [List.mem_singleton.1 hcause]
        exact concernsLine_statement? hstatement

theorem isLate_read (n : Nat) (text : List Char) :
    ∀ problem ∈ (read n text).2, problem.isLate = false :=
  fun problem hmem => Problem.isLate_of_concernsLine (concernsLine_read n text problem hmem)

end Line

namespace Directive

variable (symbols : SymbolTable) (address : Word) (name : String)

theorem concerns_plain (args : List (List Token)) (d : Directive) :
    ∀ problem ∈ (plain name args d).2, problem.concerns name = true := by
  intro problem hmem
  cases args with
  | nil => simp [plain] at hmem
  | cons arg args =>
    rw [List.mem_singleton.1 hmem]
    exact beq_self_eq_true name

theorem concerns_single {make : List Token → Except Problem Directive}
    (h : ∀ arg problem, make arg = .error problem → problem.concerns name = true)
    (args : List (List Token)) :
    ∀ problem ∈ (single name args make).2, problem.concerns name = true := by
  intro problem hmem
  rcases args with _ | ⟨arg, _ | ⟨arg', args⟩⟩
  · rw [List.mem_singleton.1 hmem]
    exact beq_self_eq_true name
  · simp only [single] at hmem
    cases hmake : make arg with
    | ok d => simp [hmake] at hmem
    | error cause =>
      rw [hmake] at hmem
      rw [List.mem_singleton.1 hmem]
      exact h arg cause hmake
  · rw [List.mem_singleton.1 hmem]
    exact beq_self_eq_true name

theorem concerns_ofParts {f : List Token → List UInt8 × List Problem} {missing : Problem}
    (hmissing : missing.concerns name = true)
    (h : ∀ arg, ∀ problem ∈ (f arg).2, problem.concerns name = true) (args : List (List Token)) :
    ∀ problem ∈ (if args.isEmpty then (none, [missing]) else ofParts (args.map f)).2,
      problem.concerns name = true := by
  intro problem hmem
  split at hmem
  · rwa [List.mem_singleton.1 hmem]
  · obtain ⟨part, hpart, hproblem⟩ := List.mem_flatMap.1 hmem
    obtain ⟨arg, -, rfl⟩ := List.mem_map.1 hpart
    exact h arg problem hproblem

theorem concerns_dataValue (hname : name = "word" ∨ name = "half" ∨ name = "byte") (width : Nat)
    (arg : List Token) :
    ∀ problem ∈ (dataValue symbols address name width arg).2, problem.concerns name = true := by
  intro problem hmem
  unfold dataValue at hmem
  split at hmem
  · rw [List.mem_singleton.1 hmem]
    exact beq_self_eq_true name
  · rw [List.mem_singleton.1 hmem]
    exact beq_self_eq_true name
  · dsimp only at hmem
    split at hmem
    · simp at hmem
    · rw [List.mem_singleton.1 hmem]
      simpa [Problem.concerns, or_assoc] using hname

theorem concerns_dataString (terminated : Bool) (arg : List Token) :
    ∀ problem ∈ (dataString name terminated arg).2, problem.concerns name = true := by
  intro problem hmem
  unfold dataString at hmem
  split at hmem
  · simp at hmem
  · rw [List.mem_singleton.1 hmem]
    exact beq_self_eq_true name

theorem concerns_exporting (arg : List Token) (problem : Problem)
    (h : exporting arg = .error problem) : problem.concerns "globl" = true := by
  unfold exporting at h
  split at h
  · split at h
    · simp at h
    · rw [← Except.error.inj h]
      rfl
  · rw [← Except.error.inj h]
    rfl

theorem concerns_known_bind {make : Word → Except Problem Directive}
    (hmake : ∀ v problem, make v = .error problem → problem.concerns name = true)
    (arg : List Token) (problem : Problem)
    (h : (known symbols address name arg >>= make) = .error problem) :
    problem.concerns name = true := by
  unfold known at h
  split at h
  · rw [← Except.error.inj h]
    exact beq_self_eq_true name
  · rw [← Except.error.inj h]
    exact beq_self_eq_true name
  · exact hmake _ problem h

theorem concerns_alignTo (v : Word) (problem : Problem) (h : alignTo v = .error problem) :
    problem.concerns "align" = true := by
  unfold alignTo at h
  split at h
  · rw [← Except.error.inj h]
    rfl
  · split at h
    · rw [← Except.error.inj h]
      rfl
    · simp at h

theorem concerns_reserveBytes (v : Word) (problem : Problem)
    (h : reserveBytes v = .error problem) : problem.concerns "space" = true := by
  unfold reserveBytes at h
  split at h
  · rw [← Except.error.inj h]
    rfl
  · simp at h

theorem concerns_read (tokens : List Token) :
    ∀ problem ∈ (read symbols address name tokens).2, problem.concerns name = true := by
  have hvalues : name = "word" ∨ name = "half" ∨ name = "byte" → ∀ width, ∀ problem ∈
      (if (Line.splitArgs tokens).isEmpty then (none, [.noValue name])
        else ofParts ((Line.splitArgs tokens).map (dataValue symbols address name width))).2,
      problem.concerns name = true := by
    intro hname width
    refine concerns_ofParts name ?_ (concerns_dataValue symbols address name hname width) _
    exact beq_self_eq_true name
  have hstrings : ∀ terminated, ∀ problem ∈
      (if (Line.splitArgs tokens).isEmpty then (none, [.noString name])
        else ofParts ((Line.splitArgs tokens).map (dataString name terminated))).2,
      problem.concerns name = true := by
    intro terminated
    refine concerns_ofParts name ?_ (concerns_dataString name terminated) _
    exact beq_self_eq_true name
  unfold read
  dsimp only
  split
  · exact concerns_plain _ _ _
  · exact concerns_plain _ _ _
  · exact concerns_single _ concerns_exporting _
  · exact concerns_single _ (concerns_known_bind symbols address _ concerns_alignTo) _
  · exact concerns_single _ (concerns_known_bind symbols address _ concerns_reserveBytes) _
  · exact hvalues (Or.inl rfl) 4
  · exact hvalues (Or.inr (Or.inl rfl)) 2
  · exact hvalues (Or.inr (Or.inr rfl)) 1
  · exact hstrings false
  · exact hstrings true
  · intro problem hmem
    rw [List.mem_singleton.1 hmem]
    exact beq_self_eq_true _

theorem isLate_read (tokens : List Token) :
    ∀ problem ∈ (read symbols address name tokens).2, problem.isLate = false := fun problem hmem =>
  Problem.isLate_of_concerns (concerns_read symbols address name tokens problem hmem)

end Directive

end Mips
