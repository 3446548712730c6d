/-
# Blanks in Base64 text

`Base64.decode` drops the blanks of a text and reads what is left.  By `decode_eq_ok_iff` that
gives bytes just when what is left is the text that is written for them, and `significant_encode`
says that this is what is left of their text in any layout.

**Blanks are five characters, and each is one byte.**  `withoutBlanks` names them in one list.  The
reader tests the bytes of a text for blanks before it drops any characters; `significant_eq` says
that it drops the characters of the list, and `filter_encodeChars` that it might have dropped the
bytes.  Both rest on the bytes below `80`, which no character has but the one that is such a byte.

What is written has no blanks but the line breaks of a layout, since symbols and pad bytes stand
elsewhere in the table.
-/
import PasswordSeal.Base64.Layout
import PasswordSeal.Proofs.Base64.Canonical
import PasswordSeal.Proofs.Utf8.Text

namespace PasswordSeal
namespace Base64

/-! ## 1. Characters of one byte -/

/-- A character of ASCII is written as one byte, which is its number. -/
theorem utf8EncodeChar_ofUInt8 {b : UInt8} (h : b < 0x80) :
    String.utf8EncodeChar (Char.ofUInt8 b) = [b] := by
  have same : (Char.ofUInt8 b).toNat = b.toNat := UInt8.toNat_toUInt32 b
  have small : b.toNat < 0x80 := UInt8.lt_iff_toNat_lt.mp h
  refine (Utf8.eq_utf8EncodeChar_iff.mpr ?_).symm
  rw [same, Utf8.units, if_pos small]
  rfl

/-- No other character has this byte. -/
theorem mem_utf8EncodeChar_iff {b : UInt8} (h : b < 0x80) {c : Char} :
    b ∈ String.utf8EncodeChar c ↔ c = Char.ofUInt8 b := by
  constructor
  · intro hb
    have unit : b.toNat ∈ Utf8.units c.toNat := by
      rw [← Utf8.map_toNat_utf8EncodeChar]
      exact List.mem_map_of_mem hb
    have same : b.toNat = c.toNat := Utf8.eq_of_mem_units unit (UInt8.lt_iff_toNat_lt.mp h)
    have number : (Char.ofUInt8 b).toNat = b.toNat := UInt8.toNat_toUInt32 b
    exact Char.toNat_inj.mp (number.trans same).symm
  · rintro rfl
    rw [utf8EncodeChar_ofUInt8 h]
    exact List.mem_singleton_self b

/-! ## 2. Blanks -/

/-- The white space of ASCII. -/
def blanks : List Char := [' ', '\t', '\n', '\x0c', '\r']

/-- The characters of a text without the white space of ASCII. -/
def withoutBlanks (text : String) : List Char := text.toList.filter (· ∉ blanks)

/-- The white space of ASCII as bytes. -/
def blankBytes : List UInt8 := [0x20, 0x09, 0x0A, 0x0C, 0x0D]

theorem isBlank_iff {c : Char} : isBlank c = true ↔ c ∈ blanks := by
  simp only [isBlank, blanks, Bool.or_eq_true, decide_eq_true_eq, List.mem_cons, List.not_mem_nil,
    or_false, or_assoc]

theorem isBlankByte_iff {b : UInt8} : isBlankByte b = true ↔ b ∈ blankBytes := by
  simp only [isBlankByte, blankBytes, Bool.or_eq_true, decide_eq_true_eq, List.mem_cons,
    List.not_mem_nil, or_false, or_assoc]

theorem withoutBlanks_eq (text : String) :
    withoutBlanks text = text.toList.filter (!isBlank ·) := by
  refine List.filter_congr fun c _ => ?_
  rw [Bool.eq_iff_iff, decide_eq_true_eq, Bool.not_eq_true', ← Bool.not_eq_true, isBlank_iff]

theorem lt_of_mem_blankBytes {b : UInt8} (h : b ∈ blankBytes) : b < 0x80 := by
  have all : ∀ b ∈ blankBytes, b < 0x80 := by decide +kernel
  exact all b h

/-- A character has a byte of white space just when it is white space itself. -/
theorem exists_blankByte_iff {c : Char} :
    (∃ b ∈ String.utf8EncodeChar c, b ∈ blankBytes) ↔ c ∈ blanks := by
  have listed : blanks = blankBytes.map Char.ofUInt8 := by decide
  rw [listed, List.mem_map]
  constructor
  · rintro ⟨b, hc, hb⟩
    exact ⟨b, hb, ((mem_utf8EncodeChar_iff (lt_of_mem_blankBytes hb)).mp hc).symm⟩
  · rintro ⟨b, hb, rfl⟩
    exact ⟨b, (mem_utf8EncodeChar_iff (lt_of_mem_blankBytes hb)).mpr rfl, hb⟩

/-- White space leaves no byte, and all other characters leave all of theirs. -/
theorem filter_utf8EncodeChar (c : Char) :
    (String.utf8EncodeChar c).filter (· ∉ blankBytes) =
      if c ∈ blanks then [] else String.utf8EncodeChar c := by
  split
  · obtain ⟨b, hc, hb⟩ := exists_blankByte_iff.mpr ‹_›
    obtain rfl := (mem_utf8EncodeChar_iff (lt_of_mem_blankBytes hb)).mp hc
    rw [utf8EncodeChar_ofUInt8 (lt_of_mem_blankBytes hb)]
    exact List.filter_cons_of_neg (by simpa using hb)
  · rename_i visible
    refine List.filter_eq_self.mpr fun b hb => decide_eq_true fun blank => visible ?_
    exact exists_blankByte_iff.mp ⟨b, hb, blank⟩

/-- What the reader looks at is the text without its blanks.  The test of the bytes does not
matter: where it finds no blank, there is none to drop. -/
theorem significant_eq (text : String) : significant text = withoutBlanks text := by
  rw [significant, withoutBlanks_eq]
  split
  · rfl
  · rename_i none
    refine (List.filter_eq_self.mpr fun c hc => ?_).symm
    rw [Bool.not_eq_true', ← Bool.not_eq_true, isBlank_iff, ← exists_blankByte_iff]
    rintro ⟨b, hb, blank⟩
    exact none (List.any_eq_true.mpr
      ⟨b, List.mem_flatMap.mpr ⟨c, hc, hb⟩, isBlankByte_iff.mpr blank⟩)

/-- **White space can be dropped from the bytes as well.**  It has no byte in common with any
other character. -/
theorem filter_encodeChars (cs : List Char) :
    (Utf8.encodeChars cs).filter (· ∉ blankBytes) = Utf8.encodeChars (cs.filter (· ∉ blanks)) := by
  induction cs with
  | nil => rfl
  | cons c cs ih =>
    rw [Utf8.encodeChars_cons, List.filter_append, ih, filter_utf8EncodeChar]
    by_cases blank : c ∈ blanks
    · have dropped : (c :: cs).filter (· ∉ blanks) = cs.filter (· ∉ blanks) :=
        List.filter_cons_of_neg (by simpa using blank)
      rw [if_pos blank, dropped]
      rfl
    · have kept : (c :: cs).filter (· ∉ blanks) = c :: cs.filter (· ∉ blanks) :=
        List.filter_cons_of_pos (by simpa using blank)
      rw [if_neg blank, kept]
      rfl

/-- The bytes that are read are those of the text without the bytes of white space. -/
theorem encodeChars_withoutBlanks (text : String) :
    Utf8.encodeChars (withoutBlanks text) = (Utf8.encode text).filter (· ∉ blankBytes) :=
  (filter_encodeChars text.toList).symm

/-! ## 3. The characters that are written -/

theorem symbol_lt (v : Sextet) : symbol v < 0x80 := by
  revert v
  decide

/-- Nothing is written but symbols and pad bytes. -/
theorem mem_encodeBytes {bytes : List UInt8} {b : UInt8} (h : b ∈ encodeBytes bytes) :
    (∃ v, b = symbol v) ∨ b = padByte := by
  rcases List.mem_append.mp h with h | h
  · obtain ⟨v, -, rfl⟩ := List.mem_map.mp h
    exact .inl ⟨v, rfl⟩
  · exact .inr (List.eq_of_mem_replicate h)

theorem lt_of_mem_encodeBytes {bytes : List UInt8} {b : UInt8} (h : b ∈ encodeBytes bytes) :
    b < 0x80 := by
  rcases mem_encodeBytes h with ⟨v, rfl⟩ | rfl
  · exact symbol_lt v
  · decide

/-- The characters of the text of some bytes are written as its symbols and pad bytes. -/
theorem utf8_encodeChars (bytes : List UInt8) :
    Utf8.encodeChars (encodeChars bytes) = encodeBytes bytes := by
  have ascii : ∀ b ∈ encodeBytes bytes, b < 0x80 := fun b => lt_of_mem_encodeBytes
  unfold encodeChars
  generalize encodeBytes bytes = s at ascii
  induction s with
  | nil => rfl
  | cons b s ih =>
    obtain ⟨hb, hs⟩ := List.forall_mem_cons.mp ascii
    rw [List.map_cons, Utf8.encodeChars_cons, utf8EncodeChar_ofUInt8 hb, ih hs]
    rfl

theorem isBlank_symbol (v : Sextet) : isBlank (Char.ofUInt8 (symbol v)) = false := by
  revert v
  decide

/-- No character that is written is a blank. -/
theorem isBlank_of_mem_encodeChars {bytes : List UInt8} {c : Char} (h : c ∈ encodeChars bytes) :
    isBlank c = false := by
  obtain ⟨b, hb, rfl⟩ := List.mem_map.mp h
  rcases mem_encodeBytes hb with ⟨v, rfl⟩ | rfl
  · exact isBlank_symbol v
  · decide

/-! ## 4. Layouts -/

/-- Without blanks there are no line breaks. -/
theorem filter_breakLines (ls : List (List Char)) :
    (breakLines ls).filter (!isBlank ·) = ls.flatten.filter (!isBlank ·) := by
  induction ls with
  | nil => rfl
  | cons l ls ih =>
    have line : (l ++ ['\n']).filter (!isBlank ·) = l.filter (!isBlank ·) := by
      rw [List.filter_append]
      exact List.append_nil _
    rw [breakLines, List.flatMap_cons, List.filter_append, line, List.flatten_cons,
      List.filter_append]
    exact congrArg _ ih

theorem filter_arrange (layout : Layout) (cs : List Char) :
    (layout.arrange cs).filter (!isBlank ·) = cs.filter (!isBlank ·) := by
  cases layout with
  | singleLine => rfl
  | mime => rw [Layout.arrange_mime, filter_breakLines, flatten_lines]

/-- **A layout adds nothing but blanks.** -/
theorem significant_encode (layout : Layout) (bytes : List UInt8) :
    significant (layout.encode bytes) = encodeChars bytes := by
  rw [significant_eq, withoutBlanks_eq, Layout.encode, String.toList_ofList, filter_arrange,
    List.filter_eq_self]
  intro c hc
  rw [isBlank_of_mem_encodeChars hc]
  rfl

/-! ## 5. Reading -/

/-- **A text is read as the bytes whose text it is, up to blanks.** -/
theorem decode_eq_ok_iff {text : String} {bytes : List UInt8} :
    decode text = .ok bytes ↔ significant text = encodeChars bytes := by
  rw [decode, decodeBytes_eq_ok_iff, ← utf8_encodeChars]
  exact ⟨Utf8.eq_of_encodeChars_eq, congrArg Utf8.encodeChars⟩

end Base64
end PasswordSeal
