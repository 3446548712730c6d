/-
# Text and its bytes

`Utf8.decode` reads a text from bytes just when they are the bytes that write it
(`decode_eq_ok_iff`).  So no bytes write two texts, and bytes that cannot be read write none.

**One character at a time.**  `decodeFrom` takes a character off the front as long as it can, and
by `read_eq_character_iff` the bytes that it takes are those that write the character.
-/
import PasswordSeal.Proofs.Outcome
import PasswordSeal.Proofs.Utf8.Character

namespace PasswordSeal
namespace Utf8

open Outcome

/-! ## 1. One step of reading -/

theorem decodeFrom_of_character {offset : Nat} {b : UInt8} {bytes rest : List UInt8} {c : Char}
    (h : read b bytes = .character c rest) :
    decodeFrom offset (b :: bytes) = (decodeFrom (offset + c.utf8Size) rest).map (c :: ·) := by
  rw [decodeFrom]
  split
  · obtain ⟨rfl, rfl⟩ := Reading.character.inj (h.symm.trans ‹_›)
    rfl
  · cases h.symm.trans ‹_›
  · cases h.symm.trans ‹_›

theorem decodeFrom_of_invalid {offset n : Nat} {b : UInt8} {bytes : List UInt8}
    (h : read b bytes = .invalid n) :
    decodeFrom offset (b :: bytes) = .error ⟨offset, some n⟩ := by
  rw [decodeFrom]
  split
  · cases h.symm.trans ‹_›
  · obtain rfl := Reading.invalid.inj (h.symm.trans ‹_›)
    rfl
  · cases h.symm.trans ‹_›

theorem decodeFrom_of_incomplete {offset : Nat} {b : UInt8} {bytes : List UInt8}
    (h : read b bytes = .incomplete) : decodeFrom offset (b :: bytes) = .error ⟨offset, none⟩ := by
  rw [decodeFrom]
  split
  · cases h.symm.trans ‹_›
  · cases h.symm.trans ‹_›
  · rfl

/-- A character that is written in front is read first. -/
theorem decodeFrom_utf8EncodeChar_append (offset : Nat) (c : Char) (rest : List UInt8) :
    decodeFrom offset (String.utf8EncodeChar c ++ rest) =
      (decodeFrom (offset + c.utf8Size) rest).map (c :: ·) := by
  obtain ⟨b, tail, hc⟩ := List.exists_cons_of_ne_nil (String.utf8EncodeChar_ne_nil (c := c))
  have front : b :: (tail ++ rest) = String.utf8EncodeChar c ++ rest := by rw [hc]; rfl
  rw [← front]
  exact decodeFrom_of_character (read_eq_character_iff.mpr front)

/-! ## 2. All characters -/

theorem decodeFrom_encodeChars (offset : Nat) (cs : List Char) :
    decodeFrom offset (encodeChars cs) = .ok cs := by
  induction cs generalizing offset with
  | nil => rw [encodeChars_nil, decodeFrom]
  | cons c cs ih =>
    rw [encodeChars_cons, decodeFrom_utf8EncodeChar_append, ih]
    rfl

theorem eq_encodeChars_of_decodeFrom {offset : Nat} {bytes : List UInt8} {cs : List Char}
    (h : decodeFrom offset bytes = .ok cs) : bytes = encodeChars cs := by
  fun_induction decodeFrom offset bytes generalizing cs with
  | case1 =>
    obtain rfl := Except.ok.inj h
    rfl
  | case2 offset b bytes c rest hread hlength ih =>
    obtain ⟨ds, hds, rfl⟩ := map_eq_ok_iff.mp h
    rw [read_eq_character_iff.mp hread, encodeChars_cons, ← ih hds]
  | case3 => cases h
  | case4 => cases h

/-- **Some characters are read just where they are written.** -/
theorem decodeFrom_eq_ok_iff {offset : Nat} {bytes : List UInt8} {cs : List Char} :
    decodeFrom offset bytes = .ok cs ↔ bytes = encodeChars cs := by
  constructor
  · exact eq_encodeChars_of_decodeFrom
  · rintro rfl
    exact decodeFrom_encodeChars offset cs

/-- **Reading text is the reverse of writing it, in both directions.** -/
theorem decode_eq_ok_iff {bytes : List UInt8} {s : String} :
    decode bytes = .ok s ↔ bytes = encode s := by
  rw [decode, map_eq_ok_iff]
  constructor
  · rintro ⟨cs, h, rfl⟩
    rw [encode, String.toList_ofList, decodeFrom_eq_ok_iff.mp h]
  · intro h
    exact ⟨s.toList, decodeFrom_eq_ok_iff.mpr h, String.ofList_toList⟩

/-- No characters are written like others. -/
theorem eq_of_encodeChars_eq {cs ds : List Char} (h : encodeChars cs = encodeChars ds) :
    cs = ds := by
  have read := decodeFrom_encodeChars 0 cs
  rw [h, decodeFrom_encodeChars 0 ds] at read
  exact (Except.ok.inj read).symm

/-- No text is written like another. -/
theorem encode_inj {s t : String} : encode s = encode t ↔ s = t := by
  constructor
  · intro h
    exact String.ext (eq_of_encodeChars_eq h)
  · rintro rfl
    rfl

end Utf8
end PasswordSeal
