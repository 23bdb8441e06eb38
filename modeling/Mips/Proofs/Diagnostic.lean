import Mips.Diagnostic

/-!
# Diagnostics by line

`Diagnostic.byLine` is a stable sort: the result goes up by line, and picking some diagnostics out
of it is the same as sorting only these. So the diagnostics of one line are found in the order in
which they were made (`filter_line_byLine`).
-/

namespace Mips

namespace Diagnostic

theorem insert_perm (d : Diagnostic) : ∀ ds, (insert d ds).Perm (d :: ds)
  | [] => .refl _
  | e :: rest => by
    unfold insert
    split
    · exact .refl _
    · exact ((insert_perm d rest).cons e).trans (.swap d e rest)

/-- Putting diagnostics in order neither loses nor adds one. -/
theorem byLine_perm : ∀ ds, (byLine ds).Perm ds
  | [] => .refl _
  | d :: ds => (insert_perm d (byLine ds)).trans ((byLine_perm ds).cons d)

theorem mem_byLine {d : Diagnostic} {ds : List Diagnostic} : d ∈ byLine ds ↔ d ∈ ds :=
  (byLine_perm ds).mem_iff

/-! ### Order -/

/-- The lines of the diagnostics go up. -/
def Ordered (ds : List Diagnostic) : Prop := ds.Pairwise (·.line ≤ ·.line)

theorem Ordered.insert (d : Diagnostic) : ∀ {ds : List Diagnostic}, Ordered ds →
    Ordered (Diagnostic.insert d ds)
  | [], _ => List.pairwise_singleton _ _
  | x :: rest, h => by
    obtain ⟨hx, hrest⟩ := List.pairwise_cons.1 h
    unfold Diagnostic.insert
    split
    · next hle =>
      refine List.pairwise_cons.2 ⟨fun e he => ?_, h⟩
      rcases List.mem_cons.1 he with rfl | he
      · exact hle
      · exact Nat.le_trans hle (hx e he)
    · next hlt =>
      refine List.pairwise_cons.2 ⟨fun e he => ?_, Ordered.insert d hrest⟩
      rcases List.mem_cons.1 ((insert_perm d rest).mem_iff.1 he) with rfl | he
      · exact Nat.le_of_not_le hlt
      · exact hx e he

theorem ordered_byLine : ∀ ds, Ordered (byLine ds)
  | [] => List.Pairwise.nil
  | d :: ds => (ordered_byLine ds).insert d

/-- In front of diagnostics of later lines a diagnostic comes first. -/
theorem insert_of_le {d : Diagnostic} : ∀ {ds : List Diagnostic},
    (∀ e ∈ ds, d.line ≤ e.line) → insert d ds = d :: ds
  | [], _ => rfl
  | x :: rest, h => by
    unfold insert
    rw [if_pos (h x List.mem_cons_self)]

theorem filter_insert (keep : Diagnostic → Bool) (d : Diagnostic) : ∀ {ds : List Diagnostic},
    Ordered ds → (insert d ds).filter keep =
      if keep d then insert d (ds.filter keep) else ds.filter keep
  | [], _ => by
    by_cases hd : keep d = true
    · simp [insert, hd]
    · simp [insert, hd]
  | x :: rest, h => by
    obtain ⟨hx, hrest⟩ := List.pairwise_cons.1 h
    by_cases hle : d.line ≤ x.line
    · -- all of the list is behind `d`, and so is what is picked of it
      have hbehind : ∀ e ∈ (x :: rest).filter keep, d.line ≤ e.line := by
        intro e he
        rcases List.mem_cons.1 (List.mem_filter.1 he).1 with rfl | he
        · exact hle
        · exact Nat.le_trans hle (hx e he)
      rw [insert, if_pos hle, List.filter_cons, insert_of_le hbehind]
    · rw [insert, if_neg hle, List.filter_cons, List.filter_cons, filter_insert keep d hrest]
      by_cases hkeep : keep x = true
      · simp only [hkeep, if_true]
        by_cases hd : keep d = true
        · simp only [hd, if_true, insert, if_neg hle]
        · simp only [hd]
          rfl
      · simp only [hkeep]
        rfl

/-- Sorting and picking can be exchanged. -/
theorem filter_byLine (keep : Diagnostic → Bool) : ∀ ds,
    (byLine ds).filter keep = byLine (ds.filter keep)
  | [] => rfl
  | d :: ds => by
    change (insert d (byLine ds)).filter keep = _
    rw [filter_insert keep d (ordered_byLine ds), filter_byLine keep ds, List.filter_cons]
    by_cases hd : keep d = true
    · simp only [hd, if_true]
      rfl
    · simp only [hd]
      rfl

theorem byLine_of_line {n : Nat} : ∀ {ds : List Diagnostic}, (∀ d ∈ ds, d.line = n) →
    byLine ds = ds
  | [], _ => rfl
  | d :: ds, h => by
    have htail : byLine ds = ds := byLine_of_line fun e he => h e (List.mem_cons_of_mem d he)
    change insert d (byLine ds) = d :: ds
    rw [htail]
    refine insert_of_le fun e he => ?_
    have hline : d.line = e.line :=
      (h d List.mem_cons_self).trans (h e (List.mem_cons_of_mem d he)).symm
    exact Nat.le_of_eq hline

/-- The diagnostics of one line are in the order in which they were made. -/
theorem filter_line_byLine (n : Nat) (ds : List Diagnostic) :
    (byLine ds).filter (·.line = n) = ds.filter (·.line = n) := by
  rw [filter_byLine]
  exact byLine_of_line fun d hd => of_decide_eq_true (List.mem_filter.1 hd).2

end Diagnostic

end Mips
