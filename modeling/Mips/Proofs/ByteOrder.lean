/-!
# The order of names is that of their bytes

Names are compared character by character. Their bytes compare the same way: a character of more
bytes starts with a larger one, and characters of equally many bytes spell their numbers with the
highest digit first (`cons_digit_lt`). So where two texts first differ, their bytes do.

    0xxxxxxx                               below 0x80
    110xxxxx 10xxxxxx                      below 0x800
    1110xxxx 10xxxxxx 10xxxxxx             below 0x10000
    11110xxx 10xxxxxx 10xxxxxx 10xxxxxx    all others
-/

namespace Mips

namespace Text

/-! ### Digits -/

theorem cons_ofNat_lt {m n : Nat} (h : m < n) (hn : n < 256) (bs bs' : List UInt8) :
    UInt8.ofNat m :: bs < UInt8.ofNat n :: bs' := by
  refine List.cons_lt_cons_iff.2 (Or.inl ?_)
  rw [UInt8.lt_iff_toNat_lt, UInt8.toNat_ofNat_of_lt' (Nat.lt_trans h hn),
    UInt8.toNat_ofNat_of_lt' hn]
  exact h

/-- A byte that holds a digit decides, and where the digits are equal the bytes behind it do. -/
theorem cons_digit_lt {v w : Nat} (h : v < w) (k radix mark : Nat) (hradix : 0 < radix)
    (hmark : radix + mark ≤ 256) (habove : v / (k * radix) = w / (k * radix))
    {bs bs' : List UInt8} (hbelow : v / k = w / k → bs < bs') :
    UInt8.ofNat (v / k % radix + mark) :: bs < UInt8.ofNat (w / k % radix + mark) :: bs' := by
  have hle : v / k ≤ w / k := Nat.div_le_div_right (Nat.le_of_lt h)
  rcases Nat.lt_or_eq_of_le hle with hlt | heq
  · -- what is above the digit is equal, so the digit is the larger one
    rw [← Nat.div_div_eq_div_mul, ← Nat.div_div_eq_div_mul] at habove
    have hv := Nat.div_add_mod (v / k) radix
    have hw := Nat.div_add_mod (w / k) radix
    have hdigit := Nat.mod_lt (w / k) hradix
    rw [habove] at hv
    exact cons_ofNat_lt (by omega) (by omega) bs bs'
  · rw [heq]
    exact List.cons_lt_cons_iff.2 (Or.inr ⟨rfl, hbelow heq⟩)

/-- The last byte of a character of several bytes. -/
theorem cons_last_lt {v w : Nat} (h : v < w) (habove : v / 64 = w / 64) (bs bs' : List UInt8) :
    UInt8.ofNat (v % 64 + 128) :: bs < UInt8.ofNat (w % 64 + 128) :: bs' := by
  have hlast : UInt8.ofNat (v / 1 % 64 + 128) :: bs < UInt8.ofNat (w / 1 % 64 + 128) :: bs' :=
    cons_digit_lt h 1 64 128 (by decide) (by decide) habove fun heq => by omega
  rwa [Nat.div_one, Nat.div_one] at hlast

/-! ### Characters -/

/-- A character that comes first has bytes that come first, whatever follows them. -/
theorem utf8EncodeChar_append_lt {c d : Char} (h : c < d) (bs bs' : List UInt8) :
    String.utf8EncodeChar c ++ bs < String.utf8EncodeChar d ++ bs' := by
  have hlt : c.val.toNat < d.val.toNat := h
  have hd : d.val.toNat < 0x110000 := by
    have hvalid := d.valid
    unfold UInt32.isValidChar Nat.isValidChar at hvalid
    omega
  unfold String.utf8EncodeChar
  generalize c.val.toNat = v at hlt
  generalize d.val.toNat = w at hlt hd
  dsimp only
  by_cases hw1 : w ≤ 0x7f
  · rw [if_pos hw1, if_pos (by omega)]
    exact cons_ofNat_lt hlt (by omega) bs bs'
  rw [if_neg hw1]
  by_cases hw2 : w ≤ 0x7ff
  · rw [if_pos hw2]
    split
    · exact cons_ofNat_lt (by omega) (by omega) _ _
    · rw [if_pos (by omega)]
      exact cons_digit_lt hlt 64 32 192 (by decide) (by decide) (by omega) fun heq =>
        cons_last_lt hlt heq bs bs'
  rw [if_neg hw2]
  by_cases hw3 : w ≤ 0xffff
  · rw [if_pos hw3]
    split
    · exact cons_ofNat_lt (by omega) (by omega) _ _
    · split
      · exact cons_ofNat_lt (by omega) (by omega) _ _
      · rw [if_pos (by omega)]
        exact cons_digit_lt hlt 4096 16 224 (by decide) (by decide) (by omega) fun heq =>
          cons_digit_lt hlt 64 64 128 (by decide) (by decide) heq fun heq =>
            cons_last_lt hlt heq bs bs'
  rw [if_neg hw3]
  split
  · exact cons_ofNat_lt (by omega) (by omega) _ _
  · split
    · exact cons_ofNat_lt (by omega) (by omega) _ _
    · split
      · exact cons_ofNat_lt (by omega) (by omega) _ _
      · exact cons_digit_lt hlt 262144 8 240 (by decide) (by decide) (by omega) fun heq =>
          cons_digit_lt hlt 4096 64 128 (by decide) (by decide) heq fun heq =>
            cons_digit_lt hlt 64 64 128 (by decide) (by decide) heq fun heq =>
              cons_last_lt hlt heq bs bs'

/-! ### Texts -/

theorem flatMap_utf8EncodeChar_lt : ∀ {cs ds : List Char}, cs < ds →
    cs.flatMap String.utf8EncodeChar < ds.flatMap String.utf8EncodeChar
  | [], d :: ds, _ => by
    rw [List.flatMap_nil, List.flatMap_cons]
    cases hd : String.utf8EncodeChar d with
    | nil => exact absurd hd String.utf8EncodeChar_ne_nil
    | cons b bs => exact List.nil_lt_cons b _
  | c :: cs, d :: ds, h => by
    rw [List.flatMap_cons, List.flatMap_cons]
    rcases List.cons_lt_cons_iff.1 h with hlt | ⟨rfl, hlt⟩
    · exact utf8EncodeChar_append_lt hlt _ _
    · exact List.append_left_lt (flatMap_utf8EncodeChar_lt hlt)

theorem toList_toUTF8 (s : String) :
    s.toUTF8.data.toList = s.toList.flatMap String.utf8EncodeChar := by
  have hbytes := String.toByteArray_ofList (l := s.toList)
  rw [String.ofList_toList] at hbytes
  rw [String.toUTF8_eq_toByteArray, hbytes]
  exact List.toList_data_toByteArray

/-- Texts in their order have bytes in their order. -/
theorem toUTF8_lt {s t : String} (h : s < t) :
    s.toUTF8.data.toList < t.toUTF8.data.toList := by
  rw [toList_toUTF8, toList_toUTF8]
  exact flatMap_utf8EncodeChar_lt h

end Text

end Mips
