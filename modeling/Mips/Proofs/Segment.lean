import Mips.Object.Segment

/-!
# Segments around the cursor

A segment is known by the bytes before its cursor and the bytes behind it. Writing puts its data at
the end of the first list and takes as many bytes off the second; skipping moves bytes over, and
makes zeros where there are none. A first run therefore works with nothing behind the cursor, and a
second run finds there what the first one left.
-/

namespace Mips

namespace Segment

/-- The segment with `done` before its cursor and `rest` behind it. -/
def parted (base : Word) (done rest : List UInt8) : Segment :=
  ⟨base, (done ++ rest).toArray, done.length⟩

@[simp] theorem base_parted (base : Word) (done rest : List UInt8) :
    (parted base done rest).base = base := rfl

@[simp] theorem cursor_parted (base : Word) (done rest : List UInt8) :
    (parted base done rest).cursor = done.length := rfl

@[simp] theorem bytes_parted (base : Word) (done rest : List UInt8) :
    (parted base done rest).bytes = (done ++ rest).toArray := rfl

@[simp] theorem address_parted (base : Word) (done rest : List UInt8) :
    (parted base done rest).address = base + BitVec.ofNat 32 done.length := rfl

theorem hasRoom_parted (base : Word) (done rest : List UInt8) (n : Nat) :
    (parted base done rest).hasRoom n = decide (base.toNat + done.length + n ≤ 0xffffffff) := rfl

/-- Up to the last address, the address of the cursor is a sum of numbers. -/
theorem toNat_address {s : Segment} (h : s.base.toNat + s.cursor ≤ 0xffffffff) :
    s.address.toNat = s.base.toNat + s.cursor := by
  rw [address, BitVec.toNat_add, BitVec.toNat_ofNat, Nat.add_mod_mod, Nat.mod_eq_of_lt (by omega)]

/-- The padding leads to a multiple of the boundary. -/
theorem dvd_address_add_padding (s : Segment) {boundary : Word} (h : 0 < boundary.toNat) :
    boundary.toNat ∣ s.address.toNat + s.padding boundary := by
  have hlt := Nat.mod_lt s.address.toNat h
  rw [padding, Nat.dvd_iff_mod_eq_zero, Nat.add_mod_mod, ← Nat.mod_add_mod,
    Nat.add_sub_cancel' (Nat.le_of_lt hlt), Nat.mod_self]

/-- Padding makes up for what is missing behind the cursor. -/
theorem toList_padTo_parted (done rest : List UInt8) (n : Nat) :
    (Bytes.padTo (done ++ rest).toArray (done.length + n)).toList =
      done ++ (rest ++ List.replicate (n - rest.length) 0) := by
  rw [Bytes.toList_padTo, List.append_assoc]
  have hmissing : done.length + n - (done ++ rest).toArray.size = n - rest.length := by
    rw [List.size_toArray, List.length_append]
    omega
  rw [hmissing]

/-- Writing puts the data before the cursor, in place of as many bytes behind it. -/
theorem write_parted (base : Word) (done rest data : List UInt8) :
    (parted base done rest).write data = parted base (done ++ data) (rest.drop data.length) := by
  have hfits : done.length + data.length ≤
      (Bytes.padTo (done ++ rest).toArray (done.length + data.length)).size := by
    rw [Bytes.size_padTo]
    omega
  have hbytes : (Bytes.padTo (done ++ rest).toArray (done.length + data.length)).overlay
      done.length data = ((done ++ data) ++ rest.drop data.length).toArray := by
    apply Array.ext'
    rw [Bytes.toList_overlay data _ _ hfits, toList_padTo_parted, List.take_left, List.drop_append,
      List.drop_of_length_le (by omega), Nat.add_sub_cancel_left, List.drop_append,
      List.drop_of_length_le (l := List.replicate _ _) (Nat.le_of_eq List.length_replicate)]
    simp
  rw [parted, write, hbytes, parted, List.length_append]

/-- Skipping moves bytes to the other side of the cursor, and makes zeros of those that miss. -/
theorem skip_parted (base : Word) (done rest : List UInt8) (n : Nat) :
    (parted base done rest).skip n =
      parted base (done ++ (rest.take n ++ List.replicate (n - rest.length) 0)) (rest.drop n) := by
  have hbytes : Bytes.padTo (done ++ rest).toArray (done.length + n) =
      (done ++ (rest.take n ++ List.replicate (n - rest.length) 0) ++ rest.drop n).toArray := by
    apply Array.ext'
    rw [toList_padTo_parted]
    rcases Nat.le_total n rest.length with hn | hn
    · rw [Nat.sub_eq_zero_of_le hn]
      simp
    · rw [List.take_of_length_le hn, List.drop_of_length_le hn]
      simp
  have hcursor : done.length + n =
      (done ++ (rest.take n ++ List.replicate (n - rest.length) 0)).length := by
    simp only [List.length_append, List.length_take, List.length_replicate]
    omega
  rw [parted, skip, hbytes, hcursor, parted]

/-- Skipping over zeros leaves zeros, whether they are there already or not. -/
theorem skip_parted_zeros (base : Word) (done rest : List UInt8) (n : Nat)
    (h : rest = [] ∨ List.replicate n 0 <+: rest) :
    (parted base done rest).skip n =
      parted base (done ++ List.replicate n 0) (rest.drop n) := by
  rw [skip_parted]
  rcases h with rfl | ⟨tail, rfl⟩
  · simp
  · simp

/-- After `rewind` every byte is behind the cursor. -/
theorem rewind_parted (base : Word) (done rest : List UInt8) :
    (parted base done rest).rewind = parted base [] (done ++ rest) := rfl

end Segment

end Mips
