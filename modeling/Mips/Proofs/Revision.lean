import Mips.Proofs.Report

/-!
# Later revisions

A revision has all instructions of the ones before it, and it is only asked for when a mnemonic is
selected: once in the first pass, and again in the second. A mnemonic that was not refused as one of
a later revision gets the same answer from every later revision (`Mnemonic.select_of_le`). So both
passes go on in step, line by line, and a source that has no such mnemonic gives the same under all
later revisions.

    mips1   beql refused
    mips2   beql selected     mips32   beql selected, all else alike
-/

namespace Mips

theorem Isa.le_trans {a b c : Isa} (h : a ≤ b) (h' : b ≤ c) : a ≤ c := Nat.le_trans h h'

section

variable {isa isa' : Isa} (hle : isa ≤ isa')
include hle

/-! ### Mnemonics -/

/-- The answer for a name changes only where it was that the mnemonic is too new. -/
theorem Mnemonic.select_of_le {name : String} {count : Nat}
    (h : ∀ problem, select isa name count = .error problem → problem.kind ≠ .laterRevision) :
    select isa' name count = select isa name count := by
  unfold select at h ⊢
  cases hname : ofName? name with
  | none => rfl
  | some m =>
    rw [hname] at h
    by_cases hsince : m.since ≤ isa
    · have hsince' : m.since ≤ isa' := Isa.le_trans hsince hle
      simp only [hsince, hsince', not_true_eq_false, if_false]
    · exact absurd rfl (h (.unsupported name m.since isa) (by simp [hsince]))

theorem Encoding.ofStatement_of_le {names : SymbolTable} {address : Word} {name : String}
    {tokens : List Token} {m : Mnemonic}
    (h : Mnemonic.select isa name (Line.splitArgs tokens).length = .ok m) :
    ofStatement isa' names address name tokens = ofStatement isa names address name tokens := by
  have hselect : Mnemonic.select isa' name (Line.splitArgs tokens).length = .ok m := by
    rw [Mnemonic.select_of_le hle, h]
    intro problem hproblem
    simp [h] at hproblem
  rw [ofStatement_eq h, ofStatement_eq hselect]

/-! ### The first pass -/

namespace Layout

theorem placeStatement_of_le {image : Image} {statement : Option Statement}
    (h : ∀ problem ∈ (placeStatement isa image statement).problems,
      problem.kind ≠ .laterRevision) :
    placeStatement isa' image statement = placeStatement isa image statement := by
  rcases statement with _ | ⟨name, args⟩ | ⟨name, args⟩ | ⟨name, value⟩
  · rfl
  · have hselect : Mnemonic.select isa' name (Line.splitArgs args).length =
        Mnemonic.select isa name (Line.splitArgs args).length := by
      refine Mnemonic.select_of_le hle fun problem hproblem => h problem ?_
      simp [placeStatement, placeInstruction, hproblem]
    simp only [placeStatement, placeInstruction, hselect]
  · rfl
  · rfl

theorem placeLine_of_le {image : Image} {line : Line}
    (h : ∀ problem ∈ (placeLine isa image line).2.problems, problem.kind ≠ .laterRevision) :
    placeLine isa' image line = placeLine isa image line := by
  rw [placeLine_eq] at h ⊢
  rw [placeLine_eq, placeStatement_of_le hle]
  exact fun problem hmem => h problem (List.mem_append_right _ hmem)

theorem placeLines_of_le {lines : List Line} {image : Image}
    (h : ∀ p ∈ (placeLines isa image lines).2, ∀ problem ∈ p.problems,
      problem.kind ≠ .laterRevision) :
    placeLines isa' image lines = placeLines isa image lines := by
  induction lines generalizing image with
  | nil => rfl
  | cons line lines ih =>
    rw [placeLines] at h
    have hline : placeLine isa' image line = placeLine isa image line :=
      placeLine_of_le hle (h _ List.mem_cons_self)
    have hlines := ih fun p hp => h p (List.mem_cons_of_mem _ hp)
    simp only [placeLines, hline, hlines]

end Layout

/-! ### The second pass -/

namespace Realization

theorem realizeLine_of_le {p : Placed} (h : p.row.Selected isa) (image : Image) :
    realizeLine isa' image p = realizeLine isa image p := by
  unfold realizeLine
  cases hplan : p.plan with
  | nothing => rfl
  | directive d => rfl
  | instruction m args =>
    simp only [realizeInstruction, Encoding.ofStatement_of_le hle (h m args hplan)]

theorem realizeLines_of_le {placed : List Placed} (h : ∀ p ∈ placed, p.row.Selected isa)
    (image : Image) : realizeLines isa' image placed = realizeLines isa image placed := by
  induction placed generalizing image with
  | nil => rfl
  | cons p placed ih =>
    have hline := realizeLine_of_le hle (h p List.mem_cons_self) image
    simp only [realizeLines, hline, ih fun p hp => h p (List.mem_cons_of_mem _ hp)]

end Realization

end

/-- A source that is assembled without a mnemonic of a later revision gives the same, module and
diagnostics, under every later revision. -/
theorem revision_assemble (source : String) {settings settings' : Settings}
    (htext : settings'.textBase = settings.textBase)
    (hdata : settings'.dataBase = settings.dataBase) (hisa : settings.isa ≤ settings'.isa) :
    ∃ a, assemble source settings = .ok a ∧
      ((∀ d ∈ a.diagnostics, d.problem.kind ≠ .laterRevision) →
        assemble source settings' = .ok a) := by
  obtain ⟨a, hassemble⟩ := exists_assembly source settings
  refine ⟨a, hassemble, fun hkinds => ?_⟩
  have hstart : Image.start settings' = Image.start settings := by
    rw [Image.start, htext, hdata]
    rfl
  have hplaced : Layout.placeLines settings'.isa (.start settings) (Source.read source).lines =
      Layout.placeLines settings.isa (.start settings) (Source.read source).lines := by
    refine Layout.placeLines_of_le hisa fun p hp problem hmem => ?_
    refine hkinds ⟨p.line.number, problem⟩ ?_
    have hd : ⟨p.line.number, problem⟩ ∈ (Layout.placeLines settings.isa (.start settings)
        (Source.read source).lines).2.flatMap (·.diagnostics) :=
      List.mem_flatMap.2 ⟨p, hp, List.mem_map.2 ⟨problem, hmem, rfl⟩⟩
    rw [diagnostics_assemble hassemble rfl, Diagnostic.mem_byLine]
    simp only [List.mem_append, hd, true_or, or_true]
  have hselected : ∀ p ∈ (Layout.placeLines settings.isa (.start settings)
      (Source.read source).lines).2, p.row.Selected settings.isa :=
    fun p hp => Listing.selected_of_mem (Layout.row_mem_rows settings hp)
  rw [← hassemble]
  simp only [assemble, hstart, hplaced, Realization.realizeLines_of_le hisa hselected]

/-- A branch of the second revision, with a warning on the line behind it, under the third. -/
theorem beql_kept :
    ∃ a, assemble "x: beql $t0, $t1, x\nb far" { isa := .mips2 } = .ok a ∧
      a.module.text.size = 8 ∧ a.diagnostics = [⟨2, .undefinedSymbol "far"⟩] ∧
      assemble "x: beql $t0, $t1, x\nb far" { isa := .mips32 } = .ok a := by
  obtain ⟨a, ha, hraised⟩ := @revision_assemble "x: beql $t0, $t1, x\nb far" { isa := .mips2 }
    { isa := .mips32 } rfl rfl (by decide)
  have hgiven : (assemble "x: beql $t0, $t1, x\nb far" { isa := .mips2 }).toOption.map
      (fun a => (a.module.text.size, a.diagnostics)) =
      some (8, [⟨2, .undefinedSymbol "far"⟩]) := by decide +kernel
  rw [ha] at hgiven
  obtain ⟨hsize, hdiagnostics⟩ := Prod.mk.inj (Option.some.inj hgiven)
  refine ⟨a, ha, hsize, hdiagnostics, hraised fun d hd => ?_⟩
  rw [hdiagnostics] at hd
  rw [List.mem_singleton.1 hd]
  decide

end Mips
