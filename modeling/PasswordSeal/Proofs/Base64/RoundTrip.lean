/-
# Reading and writing undo each other

`decode_eq_ok_iff_encode` says that a text is read as some bytes just when, without its blanks, it
is the text that is written for them.  So writing in any layout and reading gives the bytes back,
and bytes have no second text: two texts that are read alike differ in blanks only.

**What is refused.**  A text that writes nothing has to fail, whatever is wrong with it.
`exists_encodeChars_iff` describes the texts that do write something without mentioning bytes:
symbols of one alphabet, as many pad characters as fill the last group of four, and no spare bit
set in the last symbol (`WellFormed`).
-/
import Mathlib.Algebra.Group.Nat.Defs
import PasswordSeal.Proofs.Base64.Text

namespace PasswordSeal
namespace Base64

/-! ## 1. Well-formed texts -/

/-- The symbols, in the order of the numbers that they stand for. -/
def alphabet : List Char :=
  "ABCDEFGHIJKLMNOPQRSTUVWXYZabcdefghijklmnopqrstuvwxyz0123456789+/".toList

/-- Symbols, and behind them as many pad characters as fill the last group of four, at most two.
Each pad character leaves two bits of the last symbol to no byte, and those are zero. -/
def WellFormed (cs : List Char) : Prop :=
  ∃ symbols pads, cs = symbols ++ List.replicate pads '=' ∧ (∀ c ∈ symbols, c ∈ alphabet) ∧
    pads ≤ 2 ∧ (symbols.length + pads) % 4 = 0 ∧
    alphabet.idxOf (symbols.getLastD 'A') % 4 ^ pads = 0

/-- The character of a sextet. -/
def symbolChar (v : Sextet) : Char := Char.ofUInt8 (symbol v)

theorem mem_alphabet_iff {c : Char} : c ∈ alphabet ↔ ∃ v, symbolChar v = c := by
  have listed : alphabet = (List.finRange 64).map symbolChar := by decide
  rw [listed, List.mem_map]
  exact ⟨fun ⟨v, _, h⟩ => ⟨v, h⟩, fun ⟨v, h⟩ => ⟨v, List.mem_finRange v, h⟩⟩

/-- The characters of sextets are symbols. -/
theorem mem_alphabet_of_mem_map {vs : List Sextet} {c : Char} (h : c ∈ vs.map symbolChar) :
    c ∈ alphabet := by
  obtain ⟨v, -, rfl⟩ := List.mem_map.mp h
  exact mem_alphabet_iff.mpr ⟨v, rfl⟩

theorem idxOf_symbolChar (v : Sextet) : alphabet.idxOf (symbolChar v) = v.val := by
  revert v
  decide

/-- Symbols are the characters of some sextets. -/
theorem exists_map_symbolChar {cs : List Char} (h : ∀ c ∈ cs, c ∈ alphabet) :
    ∃ vs : List Sextet, vs.map symbolChar = cs := by
  refine ⟨cs.map fun c => Sextet.ofNat (alphabet.idxOf c), ?_⟩
  rw [List.map_map]
  refine (List.map_congr_left fun c hc => ?_).trans (List.map_id cs)
  obtain ⟨v, rfl⟩ := mem_alphabet_iff.mp (h c hc)
  have back : Sextet.ofNat (alphabet.idxOf (symbolChar v)) = v := by
    rw [idxOf_symbolChar]
    exact Fin.ofNat_val_eq_self v
  exact congrArg symbolChar back

/-- The last symbol is that of the last sextet. -/
theorem idxOf_getLastD_map_symbolChar (vs : List Sextet) :
    alphabet.idxOf ((vs.map symbolChar).getLastD 'A') =
      (vs.getLastD (Sextet.ofNat 0)).val := by
  have last : (vs.map symbolChar).getLastD 'A' = symbolChar (vs.getLastD (Sextet.ofNat 0)) := by
    rw [List.getLastD_eq_getLast?, List.getLastD_eq_getLast?, List.getLast?_map]
    cases vs.getLast? with
    | none => decide
    | some v => rfl
  rw [last, idxOf_symbolChar]

/-! ## 2. Spare bits -/

/-- Whether some sextets are those of bytes is told by the last of them, when it is known how many
pad characters fill the last group. -/
theorem canonical_iff_getLastD {vs : List Sextet} {pads : Nat} (hpads : pads ≤ 2)
    (hfull : (vs.length + pads) % 4 = 0) :
    Canonical vs ↔ (vs.getLastD (Sextet.ofNat 0)).val % 4 ^ pads = 0 := by
  fun_induction Canonical vs with
  | case1 =>
    have none : pads = 0 := by
      rw [List.length_nil] at hfull
      omega
    simp [none]
  | case2 =>
    rw [List.length_singleton] at hfull
    omega
  | case3 v w =>
    have two : pads = 2 := by
      simp only [List.length_cons, List.length_nil] at hfull
      omega
    rw [two]
    exact Iff.rfl
  | case4 v w x =>
    have one : pads = 1 := by
      simp only [List.length_cons, List.length_nil] at hfull
      omega
    rw [one]
    exact Iff.rfl
  | case5 v w x y rest ih =>
    simp only [List.length_cons] at hfull
    have rest_iff := ih (by omega)
    cases rest with
    | nil =>
      have none : pads = 0 := by
        rw [List.length_nil] at hfull
        omega
      simp [none, Nat.mod_one, Canonical]
    | cons z rest => exact rest_iff

/-! ## 3. What is written -/

theorem encodeChars_eq_map_symbolChar (bytes : List UInt8) :
    encodeChars bytes =
      (sextets bytes).map symbolChar ++ List.replicate (padCount bytes.length) '=' := by
  rw [encodeChars, encodeBytes, List.map_append, List.map_map, List.map_replicate]
  rfl

theorem wellFormed_encodeChars (bytes : List UInt8) : WellFormed (encodeChars bytes) := by
  have hfull := length_sextets_add_padCount bytes
  have hpad : padCount bytes.length = (3 - bytes.length % 3) % 3 := rfl
  have hlast : ((sextets bytes).getLastD (Sextet.ofNat 0)).val % 4 ^ padCount bytes.length = 0 :=
    (canonical_iff_getLastD (by omega) (by omega)).mp (canonical_sextets bytes)
  refine ⟨(sextets bytes).map symbolChar, padCount bytes.length,
    encodeChars_eq_map_symbolChar bytes, fun c => mem_alphabet_of_mem_map, by omega, ?_, ?_⟩
  · rw [List.length_map]
    omega
  · rw [idxOf_getLastD_map_symbolChar]
    exact hlast

/-- **The texts that are written are the well-formed ones.** -/
theorem exists_encodeChars_iff {cs : List Char} :
    (∃ bytes, cs = encodeChars bytes) ↔ WellFormed cs := by
  constructor
  · rintro ⟨bytes, rfl⟩
    exact wellFormed_encodeChars bytes
  · rintro ⟨symbols, pads, rfl, hsymbols, hpads, hfull, hlast⟩
    obtain ⟨vs, rfl⟩ := exists_map_symbolChar hsymbols
    rw [idxOf_getLastD_map_symbolChar] at hlast
    rw [List.length_map] at hfull
    -- these are the sextets of some bytes, which have to ask for as many pad characters
    have hvs := sextets_ofSextets ((canonical_iff_getLastD hpads hfull).mpr hlast)
    have count := length_sextets_add_padCount (ofSextets vs)
    have hpad : padCount (ofSextets vs).length = (3 - (ofSextets vs).length % 3) % 3 := rfl
    rw [hvs] at count
    have same : padCount (ofSextets vs).length = pads := by omega
    exact ⟨ofSextets vs, by rw [encodeChars_eq_map_symbolChar, hvs, same]⟩

/-! ## 4. Both directions -/

theorem decode_eq_ok_iff_withoutBlanks {text : String} {bytes : List UInt8} :
    decode text = .ok bytes ↔ withoutBlanks text = (encode bytes).toList := by
  rw [decode_eq_ok_iff, significant_eq, encode, String.toList_ofList]

/-- **Writing and reading undo each other, up to blanks.**  Texts that are read as the same bytes
differ in blanks only, and the texts that are read are the well-formed ones. -/
theorem decode_eq_ok_iff_encode (text : String) (bytes : List UInt8) :
    (decode text = .ok bytes ↔ withoutBlanks text = (encode bytes).toList) ∧
      (∀ layout : Layout, decode (layout.encode bytes) = .ok bytes) ∧
      (∀ other, decode text = .ok bytes → decode other = .ok bytes →
        withoutBlanks text = withoutBlanks other) ∧
      ((∃ b, decode text = .ok b) ↔ WellFormed (withoutBlanks text)) := by
  refine ⟨decode_eq_ok_iff_withoutBlanks, fun layout => ?_, fun other h h' => ?_, ?_⟩
  · exact decode_eq_ok_iff.mpr (significant_encode layout bytes)
  · rw [decode_eq_ok_iff_withoutBlanks.mp h, decode_eq_ok_iff_withoutBlanks.mp h']
  · rw [← exists_encodeChars_iff]
    simp only [decode_eq_ok_iff, significant_eq]

/-- Blanks are dropped wherever they stand, also in front of a pad character. -/
theorem decode_blanks :
    decode "aGk=" = .ok [0x68, 0x69] ∧ decode " aG\r\nk\t=\n" = .ok [0x68, 0x69] ∧
      withoutBlanks "aGk=" = withoutBlanks " aG\r\nk\t=\n" := by
  have plain := (decode_eq_ok_iff_encode "aGk=" [0x68, 0x69]).1.mpr (by decide)
  have spaced := (decode_eq_ok_iff_encode " aG\r\nk\t=\n" [0x68, 0x69]).1.mpr (by decide)
  have same := (decode_eq_ok_iff_encode "aGk=" [0x68, 0x69]).2.2.1 _ plain spaced
  exact ⟨plain, spaced, same⟩

end Base64
end PasswordSeal
