import Mathlib.Algebra.Ring.Nat
import Mips.Object.Module

/-!
# Reading words of a module

A module has a word at an address if four bytes of one section stand there. A word is looked for in
one section only, and the two bases alone say in which: where data lies below text it is never the
data, and from the base of the data on it is never the text. So no answer is wrong, but a word that
the module has may be missed. Nothing is missed exactly if the lower section is the text and ends
where the data begin, or if the section that is not looked at is too short for a word.

    text below data    text text text text ....  data data data
    looked for in      text                      data

    data below text    data data data ....  text text text
    looked for in      text                 text
-/

namespace Mips

namespace Word

/-- The bytes of a word are its digits. -/
theorem toNat_ofBytes (a b c d : UInt8) :
    (ofBytes a b c d).toNat =
      ((a.toNat * 256 + b.toNat) * 256 + c.toNat) * 256 + d.toNat := by
  have ha := a.toNat_lt
  have hb := b.toNat_lt
  have hc := c.toNat_lt
  have hd := d.toNat_lt
  have hshift : ∀ (x : UInt8) (k : Nat), k ≤ 24 →
      (x.toBitVec.setWidth 32 <<< k).toNat = 2 ^ k * x.toNat := by
    intro x k hk
    have hpow : 2 ^ k ≤ 2 ^ 24 := Nat.pow_le_pow_right (by decide) hk
    have hlt : x.toNat * 2 ^ k < 2 ^ 32 :=
      calc x.toNat * 2 ^ k < 2 ^ 8 * 2 ^ 24 :=
            Nat.mul_lt_mul_of_lt_of_le x.toNat_lt hpow (by decide)
        _ = 2 ^ 32 := by decide
    rw [BitVec.toNat_shiftLeft, BitVec.toNat_setWidth, UInt8.toNat_toBitVec, Nat.shiftLeft_eq,
      Nat.mod_eq_of_lt (Nat.lt_trans x.toNat_lt (by decide)), Nat.mod_eq_of_lt hlt, Nat.mul_comm]
  have hlast : (d.toBitVec.setWidth 32).toNat = d.toNat := by
    rw [BitVec.toNat_setWidth, UInt8.toNat_toBitVec,
      Nat.mod_eq_of_lt (Nat.lt_trans hd (by decide))]
  -- each byte stands below the bits of those before it
  have hfirst : 2 ^ 24 * a.toNat ||| 2 ^ 16 * b.toNat =
      2 ^ 16 * (2 ^ 8 * a.toNat + b.toNat) := by
    rw [← Nat.two_pow_add_eq_or_of_lt (by omega)]
    omega
  have hsecond : 2 ^ 16 * (2 ^ 8 * a.toNat + b.toNat) ||| 2 ^ 8 * c.toNat =
      2 ^ 8 * (2 ^ 8 * (2 ^ 8 * a.toNat + b.toNat) + c.toNat) := by
    rw [← Nat.two_pow_add_eq_or_of_lt (by omega)]
    omega
  rw [ofBytes, BitVec.toNat_or, BitVec.toNat_or, BitVec.toNat_or, hshift a 24 (by decide),
    hshift b 16 (by decide), hshift c 8 (by decide), hlast, hfirst, hsecond,
    ← Nat.two_pow_add_eq_or_of_lt hd]
  omega

end Word

namespace Module

variable (m : Module)

/-- Whether the four bytes from `address` on are bytes of section `s`. -/
def Covers (s : Section) (address : Word) : Prop :=
  (m.base s).toNat ≤ address.toNat ∧
    address.toNat + 4 ≤ (m.base s).toNat + (m.bytes s).size

instance (s : Section) (address : Word) : Decidable (m.Covers s address) :=
  inferInstanceAs (Decidable (_ ∧ _))

/-- The number that the four bytes from `address` on spell in section `s`, the most significant
first. -/
def wordIn? (s : Section) (address : Word) : Option Nat :=
  if m.Covers s address then
    some ((((m.bytes s).toList.drop (address.toNat - (m.base s).toNat)).take 4).foldl
      (fun n byte => n * 256 + byte.toNat) 0)
  else none

/-- The number that the four bytes from `address` on spell in either section. -/
def spelled? (address : Word) : Option Nat :=
  (m.wordIn? .text address).or (m.wordIn? .data address)

/-- No section passes the last address, and no address is in both. -/
structure Apart : Prop where
  below : ∀ s, (m.base s).toNat + (m.bytes s).size ≤ 2 ^ 32
  disjoint : ∀ address,
    ¬ (m.textBase.toNat ≤ address ∧ address < m.textBase.toNat + m.text.size ∧
      m.dataBase.toNat ≤ address ∧ address < m.dataBase.toNat + m.data.size)

/-- Whether the module has a word at `address` that is looked for in the other section. -/
def Misses (address : Word) : Prop :=
  m.dataBase < m.textBase ∧ m.Covers .data address ∨
    m.textBase ≤ m.dataBase ∧ m.dataBase ≤ address ∧ m.Covers .text address

instance (address : Word) : Decidable (m.Misses address) :=
  inferInstanceAs (Decidable (_ ∨ _))

variable {m}

theorem wordIn?_isSome {s : Section} {address : Word} :
    (m.wordIn? s address).isSome = true ↔ m.Covers s address := by
  unfold wordIn?
  split
  · next h => simp [h]
  · next h => simp [h]

/-- Four bytes of a list, one by one and together. -/
theorem exists_four {l : List UInt8} {i : Nat} (h : i + 4 ≤ l.length) :
    ∃ a b c d, (l.drop i).take 4 = [a, b, c, d] ∧
      l[i]? = some a ∧ l[i + 1]? = some b ∧ l[i + 2]? = some c ∧ l[i + 3]? = some d := by
  have hlength : ((l.drop i).take 4).length = 4 := by
    rw [List.length_take, List.length_drop]
    omega
  have hbyte : ∀ k < 4, l[i + k]? = ((l.drop i).take 4)[k]? := by
    intro k hk
    rw [List.getElem?_take_of_lt hk, List.getElem?_drop]
  obtain ⟨a, b, c, d, hfour⟩ : ∃ a b c d, (l.drop i).take 4 = [a, b, c, d] := by
    match (l.drop i).take 4, hlength with
    | [a, b, c, d], _ => exact ⟨a, b, c, d, rfl⟩
  rw [hfour] at hbyte
  exact ⟨a, b, c, d, hfour, hbyte 0 (by decide), hbyte 1 (by decide), hbyte 2 (by decide),
    hbyte 3 (by decide)⟩

/-- A word is read from the section where it is looked for. -/
theorem toNat_word? (m : Module) (address : Word) :
    (m.word? address).map BitVec.toNat = m.wordIn? (m.sectionAt address) address := by
  unfold word? wordIn?
  generalize m.sectionAt address = s
  simp only [← Array.getElem?_toList]
  by_cases hbase : m.base s ≤ address
  · have hle : (m.base s).toNat ≤ address.toNat := hbase
    rw [if_pos hbase]
    by_cases hcovers : m.Covers s address
    · rw [if_pos hcovers]
      have hend := hcovers.2
      obtain ⟨a, b, c, d, hfour, ha, hb, hc, hd⟩ :=
        exists_four (l := (m.bytes s).toList) (i := address.toNat - (m.base s).toNat)
          (by rw [Array.length_toList]; omega)
      rw [hfour, ha, hb, hc, hd]
      simp [Word.toNat_ofBytes]
    · rw [if_neg hcovers]
      have hlast : (m.bytes s).toList[address.toNat - (m.base s).toNat + 3]? = none := by
        refine List.getElem?_eq_none ?_
        rw [Array.length_toList]
        have hend : ¬ address.toNat + 4 ≤ (m.base s).toNat + (m.bytes s).size :=
          fun h => hcovers ⟨hle, h⟩
        omega
      rw [hlast]
      split
      · next hsome => simp at hsome
      · rfl
  · have hcovers : ¬ m.Covers s address := fun h => hbase h.1
    rw [if_neg hbase, if_neg hcovers]
    rfl

/-- No word is in both sections. -/
theorem Apart.not_covers (h : m.Apart) {address : Word} :
    ¬ (m.Covers .text address ∧ m.Covers .data address) := by
  rintro ⟨⟨htext, htext'⟩, ⟨hdata, hdata'⟩⟩
  simp only [base, bytes] at htext htext' hdata hdata'
  exact h.disjoint address.toNat ⟨htext, by omega, hdata, by omega⟩

theorem wordIn?_eq_none {s : Section} {address : Word} (h : ¬ m.Covers s address) :
    m.wordIn? s address = none := if_neg h

/-- What is read is the word that the module has, or nothing where the word is missed. -/
theorem Apart.toNat_word? (h : m.Apart) (address : Word) :
    (m.word? address).map BitVec.toNat =
      if m.Misses address then none else m.spelled? address := by
  have hapart : ¬ (m.Covers .text address ∧ m.Covers .data address) := h.not_covers
  rw [Module.toNat_word?, sectionAt, spelled?]
  split
  · next hdata =>
    have hmisses : m.Misses address ↔ m.Covers .text address := by
      have hnot : ¬ m.dataBase < m.textBase := BitVec.not_lt.2 hdata.2
      simp [Misses, hnot, hdata]
    by_cases htext : m.Covers .text address
    · rw [if_pos (hmisses.2 htext)]
      exact wordIn?_eq_none fun h => hapart ⟨htext, h⟩
    · rw [if_neg (mt hmisses.1 htext), wordIn?_eq_none htext, Option.none_or]
  · next htext =>
    have hmisses : m.Misses address ↔ m.dataBase < m.textBase ∧ m.Covers .data address := by
      have hnot : ¬ (m.textBase ≤ m.dataBase ∧ m.dataBase ≤ address ∧ m.Covers .text address) :=
        fun h => htext ⟨h.2.1, h.1⟩
      simp only [Misses, hnot, or_false]
    by_cases hdata : m.Covers .data address
    · -- the data reach up to the address, so they lie below the text
      have hlower : m.dataBase < m.textBase := by
        have hle : m.dataBase ≤ address := hdata.1
        exact BitVec.not_le.1 fun hge => htext ⟨hle, hge⟩
      rw [if_pos (hmisses.2 ⟨hlower, hdata⟩)]
      exact wordIn?_eq_none fun h => hapart ⟨h, hdata⟩
    · rw [if_neg fun h => hdata (hmisses.1 h).2, wordIn?_eq_none hdata, Option.or_none]

theorem spelled?_isSome_of_misses {address : Word} (h : m.Misses address) :
    (m.spelled? address).isSome = true := by
  rw [spelled?, Option.isSome_or, Bool.or_eq_true, wordIn?_isSome, wordIn?_isSome]
  rcases h with ⟨-, hdata⟩ | ⟨-, -, htext⟩
  · exact Or.inr hdata
  · exact Or.inl htext

/-- Nothing is missed exactly if the section that is not looked at has no room for a word. -/
theorem forall_not_misses_iff :
    (∀ address, ¬ m.Misses address) ↔
      (m.dataBase < m.textBase → m.data.size < 4) ∧
      (m.textBase ≤ m.dataBase →
        m.textBase.toNat + m.text.size < m.dataBase.toNat + 4) := by
  constructor
  · intro h
    refine ⟨fun hlower => ?_, fun hupper => ?_⟩
    · by_contra hsize
      refine h m.dataBase (Or.inl ⟨hlower, Nat.le_refl _, ?_⟩)
      simp only [base, bytes]
      omega
    · by_contra hsize
      refine h m.dataBase (Or.inr ⟨hupper, BitVec.le_refl _, hupper, ?_⟩)
      simp only [base, bytes]
      omega
  · rintro ⟨hlower, hupper⟩ address (⟨hlt, hbase, hend⟩ | ⟨hle, hreach, -, hend⟩)
    · have := hlower hlt
      simp only [base, bytes] at hbase hend
      omega
    · have := hupper hle
      have hreach' : m.dataBase.toNat ≤ address.toNat := hreach
      simp only [base, bytes] at hend
      omega

/-- Reading gives the word that the module has, or nothing where the word is missed; nothing is
missed exactly if the section that is not looked at has no room for a word. -/
theorem word?_reads (h : m.Apart) :
    (∀ address, (m.word? address).map BitVec.toNat =
      if m.Misses address then none else m.spelled? address) ∧
    ((∀ address, (m.word? address).map BitVec.toNat = m.spelled? address) ↔
      (m.dataBase < m.textBase → m.data.size < 4) ∧
      (m.textBase ≤ m.dataBase →
        m.textBase.toNat + m.text.size < m.dataBase.toNat + 4)) := by
  refine ⟨h.toNat_word?, ?_⟩
  rw [← forall_not_misses_iff]
  constructor
  · intro hreads address hmisses
    have hsome := spelled?_isSome_of_misses hmisses
    rw [← hreads address, h.toNat_word?, if_pos hmisses] at hsome
    simp at hsome
  · intro hnone address
    rw [h.toNat_word?, if_neg (hnone address)]

/-- Text of four bytes and data of four bytes, at the given addresses. -/
def pair (textBase dataBase : Word) : Module :=
  { textBase, dataBase, text := #[0, 0, 0, 0], data := #[1, 2, 3, 4], symbols := .empty
    relocations := [] }

theorem apart_pair (textBase dataBase : Word) (htext : textBase.toNat ≤ 0xfffffffc)
    (hdata : dataBase.toNat ≤ 0xfffffffc)
    (h : textBase.toNat + 4 ≤ dataBase.toNat ∨ dataBase.toNat + 4 ≤ textBase.toNat) :
    (pair textBase dataBase).Apart := by
  refine ⟨?_, ?_⟩
  · rintro (_ | _)
    · simp only [base, bytes, pair, List.size_toArray, List.length_cons, List.length_nil]
      omega
    · simp only [base, bytes, pair, List.size_toArray, List.length_cons, List.length_nil]
      omega
  · intro address
    simp only [pair, List.size_toArray, List.length_cons, List.length_nil]
    omega

/-- Data right behind the text are read. -/
theorem word?_reads_pair : (pair 0x1000 0x1004).Apart ∧
    ∀ address, ((pair 0x1000 0x1004).word? address).map BitVec.toNat =
      (pair 0x1000 0x1004).spelled? address :=
  have h := apart_pair 0x1000 0x1004 (by decide) (by decide) (by decide)
  ⟨h, (word?_reads h).2.2 ⟨by decide, by decide⟩⟩

/-- Data below the text are not read. -/
theorem data_below_text_missed : (pair 0x1000 0x100).Apart ∧
    (pair 0x1000 0x100).spelled? 0x100 = some 0x01020304 ∧
    (pair 0x1000 0x100).word? 0x100 = none :=
  ⟨apart_pair 0x1000 0x100 (by decide) (by decide) (by decide), by decide +kernel, by decide +kernel⟩

end Module

end Mips
