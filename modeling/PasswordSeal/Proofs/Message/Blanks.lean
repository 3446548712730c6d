/-
# Blanks in a sealed text

A sealed text may come back with line breaks and spaces that were not in it, and unsealing looks
away from them.  `only_blanks_are_skipped` says how far that goes.

* **Five bytes are dropped and nothing else happens to the text.**  The reader looks for blanks in
  the bytes and drops them from the characters.  Both come to the same, because a byte of a blank
  stands in no other character (`Base64.filter_encodeChars`).  So a text is read by what is left of
  its bytes, and offsets in faults count those.
* **Texts that differ in blanks only cannot be told apart,** neither by what they are unsealed to
  nor by the log, failures included.
* **No other character is skipped,** however blank it looks.  One that is no symbol, no pad
  character and no blank leaves a byte that the reader has to blame, wherever it stands.
-/
import PasswordSeal.Proofs.Base64.Diagnosis
import PasswordSeal.Proofs.Message.Log

namespace PasswordSeal

namespace Base64

/-! ## 1. What is read -/

/-- A text is read by its bytes without those of white space. -/
theorem decode_eq_decodeBytes_filter (text : String) :
    decode text = decodeBytes ((Utf8.encode text).filter (· ∉ blankBytes)) := by
  rw [decode, significant_eq, encodeChars_withoutBlanks]

theorem decode_congr {t u : String} (h : withoutBlanks t = withoutBlanks u) :
    decode t = decode u := by
  rw [decode, decode, significant_eq, significant_eq, h]

/-! ## 2. What is not skipped -/

/-- In a good shape there are symbols and pad bytes only. -/
theorem WellShaped.mem_symbols_or_eq {s : List UInt8} (h : WellShaped s) {b : UInt8} (hb : b ∈ s) :
    b ∈ symbols ∨ b = padByte := by
  obtain ⟨front, pads, shape⟩ := h
  rw [shape.eq_append] at hb
  rcases List.mem_append.mp hb with hb | hb
  · exact .inl (shape.mem_symbols b hb)
  · exact .inr (List.eq_of_mem_replicate hb)

/-- A symbol is a byte of its own character only. -/
theorem mem_alphabet_of_mem_symbols {b : UInt8} (h : b ∈ symbols) {c : Char}
    (hc : b ∈ String.utf8EncodeChar c) : c ∈ alphabet := by
  obtain ⟨v, rfl⟩ := mem_symbols_iff.mp h
  exact mem_alphabet_iff.mpr ⟨v, ((mem_utf8EncodeChar_iff (symbol_lt v)).mp hc).symm⟩

/-- A character that has no place in a text leaves a stray byte. -/
theorem exists_strayByte_of_mem {text : String} {c : Char} (here : c ∈ text.toList)
    (other : c ∉ alphabet) (unpadding : c ≠ '=') (visible : c ∉ blanks) :
    ∃ offset b, decode text = .error (.strayByte offset b) := by
  obtain ⟨b, _, spelled⟩ := List.exists_cons_of_ne_nil (String.utf8EncodeChar_ne_nil (c := c))
  have hb : b ∈ String.utf8EncodeChar c := by
    rw [spelled]
    exact List.mem_cons_self
  have kept : b ∈ Utf8.encodeChars (withoutBlanks text) :=
    List.mem_flatMap.mpr ⟨c, List.mem_filter.mpr ⟨here, decide_eq_true visible⟩, hb⟩
  have shapeless : ¬ WellShaped (Utf8.encodeChars (withoutBlanks text)) := by
    intro shaped
    rcases shaped.mem_symbols_or_eq kept with h | rfl
    · exact other (mem_alphabet_of_mem_symbols h hb)
    · exact unpadding ((mem_utf8EncodeChar_iff (by decide)).mp hb)
  obtain ⟨offset, x, blamed⟩ := exists_blamed shapeless
  refine ⟨offset, x, ?_⟩
  rw [decode, significant_eq]
  exact decodeBytes_of_blamed shapeless blamed

end Base64

/-! ## 3. Messages -/

/-- Unsealing sees a text through the bytes that it writes, or the fault. -/
theorem Settings.unsealText_congr (s : Settings) (c : Credentials) {t u : String}
    (h : Base64.decode t = Base64.decode u) : s.unsealText c t = s.unsealText c u := by
  rw [unsealText, unsealText, h]

/-- **Blanks are skipped, and blanks alone.**  Dropping them as characters or as bytes is the same,
and what is left decides everything; a character that is neither a blank nor part of the writing is
a fault under all settings. -/
theorem only_blanks_are_skipped :
    (∀ text, Base64.decode text =
        Base64.decodeBytes ((Utf8.encode text).filter (· ∉ Base64.blankBytes)) ∧
      Utf8.encodeChars (Base64.withoutBlanks text) =
        (Utf8.encode text).filter (· ∉ Base64.blankBytes)) ∧
    (∀ t u, Base64.withoutBlanks t = Base64.withoutBlanks u →
      Base64.decode t = Base64.decode u ∧
        ∀ (s : Settings) (c : Credentials), s.unsealText c t = s.unsealText c u) ∧
    ∀ (text : String) (x : Char), x ∈ text.toList → x ∉ Base64.alphabet → x ≠ '=' →
      x ∉ Base64.blanks → ∃ offset b, Base64.decode text = .error (.strayByte offset b) ∧
        ∀ (s : Settings) (c : Credentials), 16 ≤ (Utf8.encode c.identifier).length →
          (s.unsealText c text).outcome = .error (.encoding (.strayByte offset b)) := by
  refine ⟨fun text => ?_, fun t u h => ?_, fun text x here other unpadding visible => ?_⟩
  · exact ⟨Base64.decode_eq_decodeBytes_filter text, Base64.encodeChars_withoutBlanks text⟩
  · have same := Base64.decode_congr h
    exact ⟨same, fun s c => s.unsealText_congr c same⟩
  · obtain ⟨offset, b, stray⟩ := Base64.exists_strayByte_of_mem here other unpadding visible
    refine ⟨offset, b, stray, fun s c long => ?_⟩
    obtain ⟨iv, starts⟩ := exists_initialBlock_iff.mpr long
    rw [Settings.unsealText_of_decode_error (initialBlock_eq_ok_iff.mpr starts) stray]

/-- A text in two lines is the text in one; with an em space in it, it is none. -/
theorem only_blanks_are_skipped_em_space :
    let c : Credentials := ⟨"sixteen bytes id", "password"⟩
    Settings.standard.unsealText c "aGk=" = Settings.standard.unsealText c " aG\r\nk\t=\n" ∧
      ∃ offset b, (Settings.standard.unsealText c "aG\u2003k=").outcome =
        .error (.encoding (.strayByte offset b)) := by
  intro c
  obtain ⟨-, alike, strange⟩ := only_blanks_are_skipped
  obtain ⟨offset, b, -, fails⟩ :=
    strange "aG\u2003k=" '\u2003' (by decide) (by decide) (by decide) (by decide)
  exact ⟨(alike "aGk=" " aG\r\nk\t=\n" (by decide)).2 Settings.standard c,
    offset, b, fails Settings.standard c (by decide)⟩

end PasswordSeal
