import Mathlib.Algebra.Ring.Nat
import Mips.Proofs.Constancy
import Mips.Proofs.Scan
import Mips.Proofs.Word

/-!
# Data directives

`.word`, `.half` and `.byte` go over their arguments from left to right. An argument with a value
gives the digits of the value to base 256, the most significant first, and any other argument gives
an error and no bytes. So the bytes are the digits of the known values, and cut into groups they give
the values back (`groups_flatMap`).

    argument    known value            bytes and a warning if digits are lost
                not known, no number   an error
-/

namespace Mips

/-! ### Digits -/

namespace Data

/-- The lowest `width` digits of a number to base 256, the most significant first. -/
def digits : Nat → Nat → List UInt8
  | 0, _ => []
  | width + 1, n => digits width (n / 256) ++ [UInt8.ofNat n]

/-- The number that digits to base 256 spell. -/
def spelled (bytes : List UInt8) : Nat := bytes.foldl (fun n byte => n * 256 + byte.toNat) 0

/-- The numbers that bytes spell in groups of `width`. -/
def groups (width : Nat) (bytes : List UInt8) : List Nat :=
  (List.range (bytes.length / width)).map fun k => spelled ((bytes.drop (width * k)).take width)

theorem length_digits (width n : Nat) : (digits width n).length = width := by
  induction width generalizing n with
  | zero => rfl
  | succ width ih => rw [digits, List.length_append, ih, List.length_singleton]

/-- Fewer digits are the last ones of more. -/
theorem drop_digits (width more n : Nat) :
    (digits (more + width) n).drop more = digits width n := by
  induction width generalizing n with
  | zero =>
    rw [Nat.add_zero, digits]
    exact List.drop_eq_nil_of_le (Nat.le_of_eq (length_digits more n))
  | succ width ih =>
    have hlength : more ≤ (digits (more + width) (n / 256)).length := by
      rw [length_digits]
      omega
    rw [← Nat.add_assoc, digits, digits, List.drop_append_of_le_length hlength, ih]

theorem spelled_concat (bytes : List UInt8) (byte : UInt8) :
    spelled (bytes ++ [byte]) = spelled bytes * 256 + byte.toNat := by
  rw [spelled, List.foldl_append]
  rfl

theorem spelled_digits (width n : Nat) : spelled (digits width n) = n % 256 ^ width := by
  induction width generalizing n with
  | zero => rw [digits, Nat.pow_zero, Nat.mod_one]; rfl
  | succ width ih =>
    rw [digits, spelled_concat, ih, Nat.pow_succ', Nat.mod_mul, UInt8.toNat_ofNat']
    omega

theorem groups_nil (width : Nat) : groups width [] = [] := by simp [groups]

theorem groups_append {width : Nat} (hpos : 0 < width) {first : List UInt8}
    (hfirst : first.length = width) (rest : List UInt8) :
    groups width (first ++ rest) = spelled first :: groups width rest := by
  have hcount : (first ++ rest).length / width = rest.length / width + 1 := by
    rw [List.length_append, hfirst, Nat.add_comm, Nat.add_div_right _ hpos]
  rw [groups, hcount, List.range_succ_eq_map, List.map_cons, List.map_map, groups]
  congr 1
  · rw [Nat.mul_zero, List.drop_zero, ← hfirst, List.take_left]
  · refine List.map_congr_left fun k _ => ?_
    rw [Function.comp, Nat.mul_succ, Nat.add_comm, ← hfirst, ← List.drop_drop, List.drop_left]

/-- Digits in groups give the numbers back. -/
theorem groups_flatMap {width : Nat} (hpos : 0 < width) (numbers : List Nat) :
    groups width (numbers.flatMap (digits width)) = numbers.map (· % 256 ^ width) := by
  induction numbers with
  | nil => exact groups_nil width
  | cons n numbers ih =>
    rw [List.flatMap_cons, groups_append hpos (length_digits width n), ih, spelled_digits,
      List.map_cons]

end Data

theorem Word.bytes_eq_digits (x : Word) : x.bytes = Data.digits 4 x.toNat := by
  simp only [bytes, byteAt_eq, Data.digits, Nat.shiftRight_eq_div_pow, Nat.div_div_eq_div_mul,
    List.nil_append, List.cons_append, Nat.pow_zero, Nat.div_one]

namespace Directive

/-! ### Arguments -/

/-- The directives for numbers, each with the bytes of a number. -/
def widths : List (String × Nat) := [("word", 4), ("half", 2), ("byte", 1)]

/-- What is said about an argument of a directive for numbers of `width` bytes: an error if it has no
value, and a warning if it has one that is too large with and without sign. -/
def remark? (symbols : SymbolTable) (address : Word) (width : Nat) (arg : List Token) :
    Option (Severity × ProblemKind) :=
  match Expr.evalTokens symbols address arg with
  | .ok (some v) =>
    if v.toNat < 2 ^ (8 * width) ∨ -((2 ^ (8 * width - 1) : Nat) : Int) ≤ v.toInt ∧
      v.toInt < ((2 ^ (8 * width - 1) : Nat) : Int) then none
    else some (.warning, .numberCut)
  | _ => some (.error, .badData)

/-- The bytes of a value are its digits. -/
theorem valueBytes_eq {width : Nat} (hwidth : width ≤ 4) (v : Word) :
    valueBytes width v = Data.digits width (v.toNat % 2 ^ (8 * width)) := by
  have hfour : 4 - width + width = 4 := Nat.sub_add_cancel hwidth
  rw [valueBytes, Word.bytes_eq_digits, Word.toNat_low, ← Data.drop_digits width (4 - width), hfour]

variable {symbols : SymbolTable} {address : Word}

theorem remark_dataValue (name : String) (width : Nat) (arg : List Token) :
    (dataValue symbols address name width arg).2.map (fun p => (p.severity, p.kind)) =
      (remark? symbols address width arg).toList := by
  unfold dataValue remark?
  rcases Expr.evalTokens symbols address arg with cause | _ | v
  · rfl
  · rfl
  · dsimp only
    simp only [← Word.fits_iff]
    by_cases hfits : v.fits (8 * width) = true
    · simp [hfits]
    · simp only [hfits]
      rfl

/-- Each argument is remarked on by itself, in the order of the arguments. -/
theorem remarks_dataValue (name : String) (width : Nat) (args : List (List Token)) :
    ((args.map (dataValue symbols address name width)).flatMap (·.2)).map
        (fun p => (p.severity, p.kind)) =
      args.filterMap (remark? symbols address width) := by
  induction args with
  | nil => rfl
  | cons arg args ih =>
    rw [List.map_cons, List.flatMap_cons, List.map_append, ih, remark_dataValue,
      List.filterMap_cons]
    cases remark? symbols address width arg <;> rfl

/-- A directive for numbers reads its arguments one by one. -/
theorem read_widths {name : String} {width : Nat} (hname : (name, width) ∈ widths)
    {tokens : List Token} (hne : tokens ≠ []) :
    read symbols address name tokens =
      ofParts ((Line.splitArgs tokens).map (dataValue symbols address name width)) := by
  have hsome : (Line.splitArgs tokens).isEmpty = false := by
    rcases tokens with _ | ⟨t, tokens⟩
    · exact absurd rfl hne
    · rw [Line.splitArgs_eq hne, Line.cutArgs_cons]
      split
      · rfl
      · split <;> rfl
  have hdata : ∀ name width, (if (Line.splitArgs tokens).isEmpty then (none, [.noValue name])
      else ofParts ((Line.splitArgs tokens).map (dataValue symbols address name width))) =
        ofParts ((Line.splitArgs tokens).map (dataValue symbols address name width)) := by
    intro name width
    rw [hsome]
    rfl
  simp only [widths, List.mem_cons, Prod.mk.injEq, List.not_mem_nil, or_false] at hname
  rcases hname with ⟨rfl, rfl⟩ | ⟨rfl, rfl⟩ | ⟨rfl, rfl⟩
  · exact hdata "word" 4
  · exact hdata "half" 2
  · exact hdata "byte" 1

/-! ### All arguments -/

/-- A directive for numbers gives the digits of the arguments that have a value, in their order, and
one error for each of the others; the values can be read back. -/
theorem emits_known_values (symbols : SymbolTable) (address : Word) {name : String} {width : Nat}
    (hname : (name, width) ∈ widths) {comma : Token} (hcomma : comma.kind = .comma)
    {args : List (List Token)} (hargs : ∀ arg ∈ args, ∀ t ∈ arg, t.kind ≠ .comma)
    (hne : List.intercalate [comma] args ≠ []) :
    let numbers := (values symbols address args).map fun x => x.2.toNat % 2 ^ (8 * width)
    ∃ bytes problems,
      read symbols address name (List.intercalate [comma] args) = (some (.data bytes), problems) ∧
      bytes = numbers.flatMap (Data.digits width) ∧ Data.groups width bytes = numbers ∧
      problems.map (fun p => (p.severity, p.kind)) =
        args.filterMap (remark? symbols address width) ∧
      (name = "word" → ∀ p ∈ problems, p.kind ≠ .numberCut) := by
  intro numbers
  have hsplit : Line.splitArgs (List.intercalate [comma] args) = args := by
    rcases args with _ | ⟨arg, args⟩
    · rfl
    · rw [Line.splitArgs_eq hne, Line.cutArgs_intercalate hcomma hargs]
  obtain ⟨hpos, hfour⟩ : 0 < width ∧ width ≤ 4 := by
    revert hname
    simp only [widths, List.mem_cons, Prod.mk.injEq, List.not_mem_nil, or_false]
    omega
  have hbytes : (args.map (dataValue symbols address name width)).flatMap (·.1) =
      numbers.flatMap (Data.digits width) := by
    rw [flatMap_dataValue, List.flatMap_map, List.flatMap_map]
    congr 1
    funext x
    exact valueBytes_eq hfour x.2
  refine ⟨_, _, ?_, hbytes, ?_, remarks_dataValue name width args, ?_⟩
  · rw [read_widths hname hne, hsplit]
    rfl
  · rw [hbytes, Data.groups_flatMap hpos, List.map_map]
    refine List.map_congr_left fun x _ => ?_
    have hpow : 2 ^ (8 * width) = 256 ^ width := Nat.pow_mul 2 8 width
    rw [Function.comp, hpow, Nat.mod_mod]
  · rintro rfl p hp hcut
    obtain rfl : width = 4 := by simpa [widths] using hname
    have hmem : (p.severity, ProblemKind.numberCut) ∈
        args.filterMap (remark? symbols address 4) := by
      rw [← remarks_dataValue "word" 4 args, ← hcut]
      exact List.mem_map_of_mem hp
    obtain ⟨arg, -, hremark⟩ := List.mem_filterMap.1 hmem
    unfold remark? at hremark
    split at hremark
    · next v _ =>
      -- every word has room in four bytes
      rw [if_pos (Or.inl v.isLt)] at hremark
      simp at hremark
    · simp at hremark

/-- Of the arguments `1`, `later`, `0x1ff` and none, the byte directive gives two bytes, an error for
the second, a warning for the third and an error for the fourth. -/
theorem byte_skips_unknown :
    ∃ problems,
      read .empty 0x2000 "byte" (List.intercalate [⟨.comma, ","⟩] [[⟨.number 1, "1"⟩],
        [⟨.name "later", "later"⟩], [⟨.number 0x1ff, "0x1ff"⟩], []]) =
          (some (.data [1, 0xff]), problems) ∧
      Data.groups 1 [1, 0xff] = [1, 0xff] ∧
      problems.map (fun p => (p.severity, p.kind)) =
        [(.error, .badData), (.warning, .numberCut), (.error, .badData)] := by
  obtain ⟨bytes, problems, hread, hbytes, hgroups, hremarks, -⟩ :=
    @emits_known_values .empty 0x2000 "byte" 1 (by decide) ⟨.comma, ","⟩ rfl
      [[⟨.number 1, "1"⟩], [⟨.name "later", "later"⟩], [⟨.number 0x1ff, "0x1ff"⟩], []]
      (by decide) (by decide)
  obtain rfl : bytes = [1, 0xff] := hbytes.trans (by decide +kernel)
  exact ⟨problems, hread, hgroups.trans (by decide +kernel), hremarks.trans (by decide +kernel)⟩

end Directive

end Mips
