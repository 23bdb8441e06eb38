import Mips.Proofs.Listing
import Mips.Proofs.Segment

/-!
# Images around the cursors

An image is known by what stands before and behind the cursor of each of its sections. Executing a
directive moves the bytes of the directive before the cursor of the active section, in either pass:
behind the cursor there is nothing yet, or there are these very bytes.
-/

namespace Mips

/-- The lists of bytes with `bytes` added to that of `place`. -/
def appendAt (place : Section) (bytes : List UInt8) (done : Section → List UInt8) :
    Section → List UInt8 := fun s => if s = place then done s ++ bytes else done s

/-- The lists of bytes without the first `n` of that of `place`. -/
def dropAt (place : Section) (n : Nat) (rest : Section → List UInt8) : Section → List UInt8 :=
  fun s => if s = place then (rest s).drop n else rest s

@[simp] theorem appendAt_nil (place : Section) (done : Section → List UInt8) :
    appendAt place [] done = done := by
  funext s
  simp [appendAt]

@[simp] theorem dropAt_zero (place : Section) (rest : Section → List UInt8) :
    dropAt place 0 rest = rest := by
  funext s
  simp [dropAt]

@[simp] theorem dropAt_nil (place : Section) (n : Nat) :
    dropAt place n (fun _ => []) = fun _ => [] := by
  funext s
  simp [dropAt]

/-- The multiple of `boundary` that padding leads to is the next one. -/
theorem padding_eq_gap (s : Segment) (boundary : Word) :
    s.padding boundary = gap s.address boundary := by
  unfold gap
  by_cases hb : boundary = 0
  · subst hb
    have hzero : Nat.find (exists_gap s.address 0) = 0 := (Nat.find_eq_zero _).2 (Or.inl rfl)
    rw [hzero]
    simp [Segment.padding]
  · have hpos : 0 < boundary.toNat :=
      Nat.pos_of_ne_zero fun h => hb (BitVec.eq_of_toNat_eq h)
    symm
    rw [Nat.find_eq_iff]
    refine ⟨Or.inr (s.dvd_address_add_padding hpos), ?_⟩
    rintro n hn (h | h)
    · exact hb h
    · have hlt := Nat.mod_lt s.address.toNat hpos
      rw [Nat.dvd_iff_mod_eq_zero, ← Nat.mod_add_mod] at h
      unfold Segment.padding at hn
      by_cases hr : s.address.toNat % boundary.toNat = 0
      · rw [hr, Nat.sub_zero, Nat.mod_self] at hn
        omega
      · rw [Nat.mod_eq_of_lt (by omega)] at hn
        rw [Nat.mod_eq_of_lt (by omega)] at h
        omega

namespace Image

/-- The image whose sections have the bytes `done` before their cursors and `rest` behind them. -/
def parted (base : Section → Word) (done rest : Section → List UInt8) (active : Section)
    (names : SymbolTable) : Image :=
  { text := .parted (base .text) (done .text) (rest .text)
    data := .parted (base .data) (done .data) (rest .data)
    active, symbols := names }

variable {base : Section → Word} {done rest : Section → List UInt8} {active : Section}
  {names : SymbolTable}

@[simp] theorem active_parted : (parted base done rest active names).active = active := rfl

@[simp] theorem symbols_parted : (parted base done rest active names).symbols = names := rfl

@[simp] theorem segment_parted (place : Section) :
    (parted base done rest active names).segment place =
      .parted (base place) (done place) (rest place) := by cases place <;> rfl

@[simp] theorem current_parted : (parted base done rest active names).current =
    .parted (base active) (done active) (rest active) := segment_parted active

@[simp] theorem address_parted : (parted base done rest active names).address =
    base active + BitVec.ofNat 32 (done active).length := by
  rw [address, current_parted, Segment.address_parted]

/-- What moves `bytes` before the cursor of a segment moves them in the active section. -/
theorem onCurrent_parted {f : Segment → Segment} {bytes : List UInt8}
    (h : f (.parted (base active) (done active) (rest active)) =
      .parted (base active) (done active ++ bytes) ((rest active).drop bytes.length)) :
    (parted base done rest active names).onCurrent f =
      parted base (appendAt active bytes done) (dropAt active bytes.length rest) active names := by
  cases active with
  | text => simp [parted, onCurrent, appendAt, dropAt, h]
  | data => simp [parted, onCurrent, appendAt, dropAt, h]

theorem write_parted (bytes : List UInt8) :
    (parted base done rest active names).onCurrent (·.write bytes) =
      parted base (appendAt active bytes done) (dropAt active bytes.length rest) active names :=
  onCurrent_parted (Segment.write_parted _ _ _ _)

/-- Skipping moves zeros before the cursor, if they or nothing is behind it. -/
theorem skip_parted (n : Nat) (h : rest active = [] ∨ List.replicate n 0 <+: rest active) :
    (parted base done rest active names).onCurrent (·.skip n) =
      parted base (appendAt active (List.replicate n 0) done) (dropAt active n rest) active
        names := by
  have hskip := Segment.skip_parted_zeros (base active) (done active) (rest active) n h
  have hlength : (List.replicate n (0 : UInt8)).length = n := List.length_replicate
  have hmove : (parted base done rest active names).onCurrent (·.skip n) =
      parted base (appendAt active (List.replicate n 0) done)
        (dropAt active (List.replicate n (0 : UInt8)).length rest) active names :=
    onCurrent_parted (by rw [hskip, hlength])
  rwa [hlength] at hmove

theorem sizeOf_eq_length (image : Image) (d : Directive) :
    image.sizeOf d = (d.bytes image.address).length := by
  cases d with
  | align boundary =>
    rw [sizeOf, padding_eq_gap, Directive.bytes, List.length_replicate]
    rfl
  | reserve size => rw [sizeOf, Directive.bytes, List.length_replicate]
  | data bytes => rfl
  | choose place => rfl
  | global name => rfl

/-- The names after a directive is executed. -/
def exported (names : SymbolTable) : Directive → SymbolTable
  | .global name => names.markGlobal name
  | _ => names

/-- A directive moves its bytes before the cursor, if they or nothing is behind it. -/
theorem execute_parted (d : Directive)
    (h : rest active = [] ∨
      d.bytes (base active + BitVec.ofNat 32 (done active).length) <+: rest active) :
    (parted base done rest active names).execute d =
      parted base
        (appendAt active (d.bytes (base active + BitVec.ofNat 32 (done active).length)) done)
        (dropAt active (d.bytes (base active + BitVec.ofNat 32 (done active).length)).length rest)
        ((Plan.directive d).next active) (exported names d) := by
  cases d with
  | choose place =>
    simp only [Directive.bytes, List.length_nil, appendAt_nil, dropAt_zero]
    rfl
  | global name =>
    simp only [Directive.bytes, List.length_nil, appendAt_nil, dropAt_zero]
    rfl
  | align boundary =>
    simp only [Directive.bytes] at h ⊢
    have halign : (parted base done rest active names).onCurrent (·.align boundary) =
        (parted base done rest active names).onCurrent
          (·.skip (gap (base active + BitVec.ofNat 32 (done active).length) boundary)) := by
      cases active with
      | text => simp [parted, onCurrent, Segment.align, padding_eq_gap]
      | data => simp [parted, onCurrent, Segment.align, padding_eq_gap]
    rw [execute, halign, skip_parted _ h, List.length_replicate]
    rfl
  | reserve size =>
    simp only [Directive.bytes] at h ⊢
    rw [execute, skip_parted _ h, List.length_replicate]
    rfl
  | data bytes => exact write_parted bytes

end Image

end Mips
