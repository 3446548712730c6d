/-
# One character and its bytes

`Utf8.read` goes by a table: the first byte of a character settles how many bytes follow and in
which range each lies.  `String.utf8EncodeChar` goes by the number of the character.  This module
proves that they are inverse to each other: bytes are read as a character just when they start
with the bytes that write it (`read_eq_character_iff`).

**Only the second byte has a range of its own.**  `lead?_eq` brings the table to that form, and
then the four lengths are the four cases on both sides.  What the narrow ranges are for shows in
the arithmetic: after `E0` and `F0` they keep a number from being small enough for fewer bytes,
and after `ED` and `F4` they keep it from being no character.
-/
import PasswordSeal.Bytes.Basic
import PasswordSeal.Utf8

namespace PasswordSeal
namespace Utf8

open Bytes

/-! ## 1. The bytes after the first -/

/-- Some bytes lie in some ranges, one in each. -/
def InRanges : List ByteRange → List UInt8 → Prop
  | [], [] => True
  | r :: rs, b :: bs => r.contains b = true ∧ InRanges rs bs
  | _, _ => False

theorem inRanges_nil_iff {tail : List UInt8} : InRanges [] tail ↔ tail = [] := by
  cases tail with
  | nil => exact ⟨fun _ => rfl, fun _ => trivial⟩
  | cons b tail => exact ⟨False.elim, List.cons_ne_nil b tail⟩

theorem inRanges_cons_iff {r : ByteRange} {rs : List ByteRange} {tail : List UInt8} :
    InRanges (r :: rs) tail ↔
      ∃ b bs, tail = b :: bs ∧ r.contains b = true ∧ InRanges rs bs := by
  cases tail with
  | nil =>
    constructor
    · exact False.elim
    · rintro ⟨b, bs, h, -⟩
      cases h
  | cons b bs =>
    constructor
    · exact fun h => ⟨b, bs, rfl, h⟩
    · rintro ⟨_, _, h, hin⟩
      cases h
      exact hin

/-- The bits of a character after more bytes, each of which gives six. -/
def gather (bits : Nat) : List UInt8 → Nat
  | [] => bits
  | b :: bs => gather (bits * 64 + b.toNat % 64) bs

/-- **A character is read where bytes lie in the ranges.** -/
theorem follow_eq_character_iff {bits seen : Nat} {rs : List ByteRange} {bytes rest : List UInt8}
    {c : Char} :
    follow bits seen rs bytes = .character c rest ↔
      ∃ tail, InRanges rs tail ∧ bytes = tail ++ rest ∧ c = Char.ofNat (gather bits tail) := by
  induction rs generalizing bits seen bytes with
  | nil =>
    constructor
    · intro h
      obtain ⟨rfl, rfl⟩ := Reading.character.inj h
      exact ⟨[], trivial, rfl, rfl⟩
    · rintro ⟨tail, hin, rfl, rfl⟩
      cases tail with
      | nil => rfl
      | cons b tail => exact absurd hin id
  | cons r rs ih =>
    constructor
    · intro h
      cases bytes with
      | nil => cases h
      | cons b bytes =>
        rw [follow] at h
        split at h
        · obtain ⟨tail, hin, rfl, rfl⟩ := ih.mp h
          exact ⟨b :: tail, ⟨‹_›, hin⟩, rfl, rfl⟩
        · cases h
    · rintro ⟨tail, hin, rfl, rfl⟩
      cases tail with
      | nil => exact absurd hin id
      | cons b tail =>
        rw [List.cons_append, follow, if_pos hin.1]
        exact ih.mpr ⟨tail, hin.2, rfl, rfl⟩

/-! ## 2. The table of first bytes -/

/-- The range of the byte after a first byte. -/
def second (b : UInt8) : ByteRange :=
  if b = 0xE0 then ⟨0xA0, 0xBF⟩
  else if b = 0xED then ⟨0x80, 0x9F⟩
  else if b = 0xF0 then ⟨0x90, 0xBF⟩
  else if b = 0xF4 then ⟨0x80, 0x8F⟩
  else continuation

/-- **The first byte settles the length, and the second byte has a range of its own.** -/
theorem lead?_eq : ∀ b, lead? b =
    if b.toNat < 0x80 then some ⟨b.toNat, []⟩
    else if b.toNat < 0xC2 then none
    else if b.toNat < 0xE0 then some ⟨b.toNat - 0xC0, [second b]⟩
    else if b.toNat < 0xF0 then some ⟨b.toNat - 0xE0, [second b, continuation]⟩
    else if b.toNat < 0xF5 then some ⟨b.toNat - 0xF0, [second b, continuation, continuation]⟩
    else none := by
  decide +kernel

theorem contains_iff {r : ByteRange} {b : UInt8} :
    r.contains b = true ↔ r.low.toNat ≤ b.toNat ∧ b.toNat ≤ r.high.toNat := by
  simp [ByteRange.contains, UInt8.le_iff_toNat_le]

theorem continuation_contains_iff {b : UInt8} :
    continuation.contains b = true ↔ 0x80 ≤ b.toNat ∧ b.toNat ≤ 0xBF :=
  contains_iff

theorem second_contains_iff {b x : UInt8} :
    (second b).contains x = true ↔
      (0x80 ≤ x.toNat ∧ x.toNat ≤ 0xBF) ∧ (b.toNat = 0xE0 → 0xA0 ≤ x.toNat) ∧
        (b.toNat = 0xED → x.toNat ≤ 0x9F) ∧ (b.toNat = 0xF0 → 0x90 ≤ x.toNat) ∧
        (b.toNat = 0xF4 → x.toNat ≤ 0x8F) := by
  have same (m : UInt8) : b = m ↔ b.toNat = m.toNat := UInt8.toNat_inj.symm
  simp only [second, same]
  (repeat' split) <;> simp_all [contains_iff, continuation] <;> omega

/-! ## 3. The bytes of a character as numbers -/

/-- A character is no surrogate and not past the last one. -/
theorem char_range (c : Char) : c.toNat < 0xD800 ∨ 0xDFFF < c.toNat ∧ c.toNat < 0x110000 :=
  c.valid

theorem toNat_ofNat {n : Nat} (h : n < 0xD800 ∨ 0xDFFF < n ∧ n < 0x110000) :
    (Char.ofNat n).toNat = n := by
  have valid : n.isValidChar := h
  rw [Char.ofNat, dif_pos valid]
  rfl

/-- The bytes that write the character with number `n`, as numbers. -/
def units (n : Nat) : List Nat :=
  if n < 0x80 then [n]
  else if n < 0x800 then [0xC0 + n / 64, 0x80 + n % 64]
  else if n < 0x10000 then [0xE0 + n / 4096, 0x80 + n / 64 % 64, 0x80 + n % 64]
  else [0xF0 + n / 262144, 0x80 + n / 4096 % 64, 0x80 + n / 64 % 64, 0x80 + n % 64]

theorem map_toNat_utf8EncodeChar (c : Char) :
    (String.utf8EncodeChar c).map UInt8.toNat = units c.toNat := by
  have range := char_range c
  simp only [String.utf8EncodeChar, Char.toNat_val, units]
  (repeat' split) <;> simp <;> omega

theorem eq_utf8EncodeChar_iff {bytes : List UInt8} {c : Char} :
    bytes = String.utf8EncodeChar c ↔ bytes.map UInt8.toNat = units c.toNat := by
  rw [← map_toNat_utf8EncodeChar]
  constructor
  · exact congrArg (List.map UInt8.toNat)
  · exact (List.map_inj_right fun _ _ => UInt8.toNat_inj.mp).mp

/-- Only a character of one byte has a byte below `80`. -/
theorem eq_of_mem_units {m n : Nat} (h : m ∈ units n) (small : m < 0x80) : m = n := by
  unfold units at h
  split at h
  · exact List.mem_singleton.mp h
  split at h
  · simp only [List.mem_cons, List.not_mem_nil, or_false] at h
    omega
  split at h
  · simp only [List.mem_cons, List.not_mem_nil, or_false] at h
    omega
  · simp only [List.mem_cons, List.not_mem_nil, or_false] at h
    omega

/-! ## 4. The table and the numbers -/

/-- By the table, `b` and the bytes `tail` after it are the character `c`. -/
def Spells (b : UInt8) (tail : List UInt8) (c : Char) : Prop :=
  ∃ l, lead? b = some l ∧ InRanges l.following tail ∧ c = Char.ofNat (gather l.bits tail)

/-- One case for each length.  The ranges of the second byte make the number valid and as large
as its length asks for. -/
theorem units_of_spells {b : UInt8} {tail : List UInt8} {c : Char} (h : Spells b tail c) :
    (b :: tail).map UInt8.toNat = units c.toNat := by
  obtain ⟨l, hl, hin, rfl⟩ := h
  rw [lead?_eq] at hl
  split at hl
  · -- one byte, which is the number
    obtain rfl := Option.some.inj hl
    obtain rfl := inRanges_nil_iff.mp hin
    simp only [gather, List.map_cons, List.map_nil]
    rw [toNat_ofNat (by omega), units, if_pos (by omega)]
  split at hl
  · cases hl
  split at hl
  · -- two bytes: the first is `C2` at least, so the number is not below `80`
    obtain rfl := Option.some.inj hl
    simp only [inRanges_cons_iff, inRanges_nil_iff] at hin
    obtain ⟨x, _, rfl, hx, rfl⟩ := hin
    have hx := second_contains_iff.mp hx
    simp only [gather, List.map_cons, List.map_nil]
    rw [toNat_ofNat (by omega), units, if_neg (by omega), if_pos (by omega)]
    simp only [List.cons.injEq, and_true]
    omega
  split at hl
  · -- three bytes: the second is high after `E0`, and low after `ED`
    obtain rfl := Option.some.inj hl
    simp only [inRanges_cons_iff, inRanges_nil_iff] at hin
    obtain ⟨x, _, rfl, hx, y, _, rfl, hy, rfl⟩ := hin
    have hx := second_contains_iff.mp hx
    have hy := continuation_contains_iff.mp hy
    simp only [gather, List.map_cons, List.map_nil]
    rw [toNat_ofNat (by omega), units, if_neg (by omega), if_neg (by omega), if_pos (by omega)]
    simp only [List.cons.injEq, and_true]
    omega
  split at hl
  · -- four bytes: the second is high after `F0`, and low after `F4`
    obtain rfl := Option.some.inj hl
    simp only [inRanges_cons_iff, inRanges_nil_iff] at hin
    obtain ⟨x, _, rfl, hx, y, _, rfl, hy, z, _, rfl, hz, rfl⟩ := hin
    have hx := second_contains_iff.mp hx
    have hy := continuation_contains_iff.mp hy
    have hz := continuation_contains_iff.mp hz
    simp only [gather, List.map_cons, List.map_nil]
    rw [toNat_ofNat (by omega), units, if_neg (by omega), if_neg (by omega), if_neg (by omega)]
    simp only [List.cons.injEq, and_true]
    omega
  · cases hl

/-- The other way, the number of a character settles its first byte and with it the lead, and
puts the bytes after it into the ranges. -/
theorem spells_of_units {b : UInt8} {tail : List UInt8} {c : Char}
    (h : (b :: tail).map UInt8.toNat = units c.toNat) : Spells b tail c := by
  have range := char_range c
  suffices ∃ l, lead? b = some l ∧ InRanges l.following tail ∧ gather l.bits tail = c.toNat by
    obtain ⟨l, hl, hin, hc⟩ := this
    exact ⟨l, hl, hin, by rw [hc, Char.ofNat_toNat]⟩
  rw [List.map_cons, units] at h
  rw [lead?_eq]
  split at h
  · obtain ⟨hb, htail⟩ := List.cons.inj h
    obtain rfl := List.map_eq_nil_iff.mp htail
    rw [if_pos (by omega)]
    exact ⟨_, rfl, inRanges_nil_iff.mpr rfl, hb⟩
  split at h
  · obtain ⟨hb, htail⟩ := List.cons.inj h
    obtain ⟨x, _, rfl, hx, htail⟩ := List.map_eq_cons_iff.mp htail
    obtain rfl := List.map_eq_nil_iff.mp htail
    rw [if_neg (by omega), if_neg (by omega), if_pos (by omega)]
    refine ⟨_, rfl, ?_, by simp only [gather]; omega⟩
    exact ⟨second_contains_iff.mpr (by omega), trivial⟩
  split at h
  · obtain ⟨hb, htail⟩ := List.cons.inj h
    obtain ⟨x, _, rfl, hx, htail⟩ := List.map_eq_cons_iff.mp htail
    obtain ⟨y, _, rfl, hy, htail⟩ := List.map_eq_cons_iff.mp htail
    obtain rfl := List.map_eq_nil_iff.mp htail
    rw [if_neg (by omega), if_neg (by omega), if_neg (by omega), if_pos (by omega)]
    refine ⟨_, rfl, ?_, by simp only [gather]; omega⟩
    exact ⟨second_contains_iff.mpr (by omega), continuation_contains_iff.mpr (by omega), trivial⟩
  · obtain ⟨hb, htail⟩ := List.cons.inj h
    obtain ⟨x, _, rfl, hx, htail⟩ := List.map_eq_cons_iff.mp htail
    obtain ⟨y, _, rfl, hy, htail⟩ := List.map_eq_cons_iff.mp htail
    obtain ⟨z, _, rfl, hz, htail⟩ := List.map_eq_cons_iff.mp htail
    obtain rfl := List.map_eq_nil_iff.mp htail
    rw [if_neg (by omega), if_neg (by omega), if_neg (by omega), if_neg (by omega),
      if_pos (by omega)]
    refine ⟨_, rfl, ?_, by simp only [gather]; omega⟩
    exact ⟨second_contains_iff.mpr (by omega), continuation_contains_iff.mpr (by omega),
      continuation_contains_iff.mpr (by omega), trivial⟩

/-- **The table spells a character as its number does.** -/
theorem spells_iff {b : UInt8} {tail : List UInt8} {c : Char} :
    Spells b tail c ↔ b :: tail = String.utf8EncodeChar c := by
  rw [eq_utf8EncodeChar_iff]
  exact ⟨units_of_spells, spells_of_units⟩

/-! ## 5. Reading one character -/

theorem read_eq_character_iff_spells {b : UInt8} {bytes rest : List UInt8} {c : Char} :
    read b bytes = .character c rest ↔ ∃ tail, Spells b tail c ∧ bytes = tail ++ rest := by
  rw [read]
  cases hl : lead? b with
  | none =>
    constructor
    · intro h
      cases h
    · rintro ⟨tail, ⟨l, hl', -⟩, -⟩
      cases hl.symm.trans hl'
  | some l =>
    refine follow_eq_character_iff.trans ⟨?_, ?_⟩
    · rintro ⟨tail, hin, rfl, rfl⟩
      exact ⟨tail, ⟨l, hl, hin, rfl⟩, rfl⟩
    · rintro ⟨tail, ⟨l', hl', hin, rfl⟩, rfl⟩
      obtain rfl := Option.some.inj (hl.symm.trans hl')
      exact ⟨tail, hin, rfl, rfl⟩

/-- **Reading a character is the reverse of writing it.** -/
theorem read_eq_character_iff {b : UInt8} {bytes rest : List UInt8} {c : Char} :
    read b bytes = .character c rest ↔ b :: bytes = String.utf8EncodeChar c ++ rest := by
  rw [read_eq_character_iff_spells]
  constructor
  · rintro ⟨tail, h, rfl⟩
    rw [← List.cons_append, spells_iff.mp h]
  · intro h
    obtain ⟨lead, tail, hc⟩ := List.exists_cons_of_ne_nil (String.utf8EncodeChar_ne_nil (c := c))
    rw [hc, List.cons_append] at h
    obtain ⟨rfl, rfl⟩ := List.cons.inj h
    exact ⟨tail, spells_iff.mpr hc.symm, rfl⟩

end Utf8
end PasswordSeal
