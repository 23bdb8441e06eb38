import Mips.Machine.Word

/-!
# Segments

A segment is a section while it is built: the address of its first byte, the bytes so far, and a
cursor where the next byte goes. A first run over a program moves the cursor and lets the bytes grow;
after `rewind` a second run writes over the same places. Bytes that were passed over are zero.
-/

namespace Mips

/-- The bytes of a section, in the order of their addresses. -/
abbrev Bytes := Array UInt8

namespace Bytes

/-- The bytes, with zeros added up to the length `n`. -/
def padTo (bytes : Bytes) (n : Nat) : Bytes := bytes ++ Array.replicate (n - bytes.size) 0

/-- The bytes with `data` in place of those from position `pos` on. -/
def overlay (bytes : Bytes) (pos : Nat) : List UInt8 → Bytes
  | [] => bytes
  | b :: data => overlay (bytes.setIfInBounds pos b) (pos + 1) data

theorem toList_padTo (bytes : Bytes) (n : Nat) :
    (bytes.padTo n).toList = bytes.toList ++ List.replicate (n - bytes.size) 0 := by
  simp [padTo]

theorem size_padTo (bytes : Bytes) (n : Nat) : (bytes.padTo n).size = max bytes.size n := by
  simp [padTo]
  omega

/-- Data that lies within the bytes replaces as many of them, and the others stay. -/
theorem toList_overlay : ∀ (data : List UInt8) (bytes : Bytes) (pos : Nat),
    pos + data.length ≤ bytes.size →
    (bytes.overlay pos data).toList =
      bytes.toList.take pos ++ data ++ bytes.toList.drop (pos + data.length)
  | [], bytes, pos, _ => by simp [overlay]
  | b :: data, bytes, pos, h => by
    rw [List.length_cons] at h
    have lt : pos < bytes.toList.length := by simp; omega
    rw [overlay, toList_overlay data _ _ (by rw [Array.size_setIfInBounds]; omega),
      Array.toList_setIfInBounds, List.set_eq_take_append_cons_drop, if_pos lt]
    have cut : (bytes.toList.take pos).length = pos := by rw [List.length_take]; omega
    have start : (bytes.toList.take pos ++ b :: bytes.toList.drop (pos + 1)).take (pos + 1) =
        bytes.toList.take pos ++ [b] := by
      rw [List.take_append, cut, List.take_of_length_le (by omega)]
      simp
    have rest : (bytes.toList.take pos ++ b :: bytes.toList.drop (pos + 1)).drop
        (pos + 1 + data.length) = bytes.toList.drop (pos + (data.length + 1)) := by
      rw [List.drop_append, cut, List.drop_of_length_le (by omega), List.nil_append,
        show pos + 1 + data.length - pos = data.length + 1 by omega, List.drop_succ_cons,
        List.drop_drop]
      congr 1
      omega
    rw [start, rest]
    simp

end Bytes

/-- A section while it is built. -/
structure Segment where
  base : Word
  bytes : Bytes := #[]
  cursor : Nat := 0
  deriving DecidableEq, Repr

namespace Segment

/-- The address where the next byte goes. -/
def address (s : Segment) : Word := s.base + BitVec.ofNat 32 s.cursor

/-- Whether `n` more bytes end at or below the last address. -/
def hasRoom (s : Segment) (n : Nat) : Bool := s.base.toNat + s.cursor + n ≤ 0xffffffff

/-- How many bytes are missing to a multiple of `boundary`. -/
def padding (s : Segment) (boundary : Word) : Nat :=
  (boundary.toNat - s.address.toNat % boundary.toNat) % boundary.toNat

/-- Put `data` at the cursor and move behind it. -/
def write : Segment → List UInt8 → Segment
  | ⟨base, bytes, cursor⟩, data =>
    ⟨base, (bytes.padTo (cursor + data.length)).overlay cursor data, cursor + data.length⟩

/-- Move the cursor `n` bytes on. -/
def skip : Segment → Nat → Segment
  | ⟨base, bytes, cursor⟩, n => ⟨base, bytes.padTo (cursor + n), cursor + n⟩

/-- Move the cursor to the next multiple of `boundary`. -/
def align (s : Segment) (boundary : Word) : Segment := s.skip (s.padding boundary)

/-- Move the cursor back to the first byte. -/
def rewind (s : Segment) : Segment := { s with cursor := 0 }

end Segment

end Mips
