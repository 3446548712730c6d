/-
# The shape of the text that is written

What stands where in the text of some bytes follows from their number (`encode_shape`).

* **In one line** the text is as many groups of four as the bytes have groups of three, the last
  one filled up.  Symbols come first, and then as many pad characters as bytes are missing.
* **In lines** the text is that line cut after every 76 characters, with a break after each piece.
  `Ruled` describes the pieces without cutting: all are full but the last, and the last is not
  empty.  There is one way to be so (`ruled_iff`), and therefore one text.

A text that fills its lines to the end is no exception: it has no empty line behind them, and no
two breaks stand together.
-/
import PasswordSeal.Base64.Layout
import PasswordSeal.Proofs.Base64.RoundTrip

namespace PasswordSeal
namespace Base64

/-! ## 1. One line -/

theorem length_encodeChars (bytes : List UInt8) :
    (encodeChars bytes).length = 4 * ((bytes.length + 2) / 3) := by
  rw [encodeChars_eq_map_symbolChar, List.length_append, List.length_map, List.length_replicate,
    length_sextets_add_padCount, Nat.mul_comm]

/-- Symbols, and then the pad characters. -/
theorem exists_symbols_encodeChars (bytes : List UInt8) :
    ∃ front, encodeChars bytes = front ++ List.replicate ((3 - bytes.length % 3) % 3) '=' ∧
      ∀ c ∈ front, c ∈ alphabet :=
  ⟨(sextets bytes).map symbolChar, encodeChars_eq_map_symbolChar bytes,
    fun _ => mem_alphabet_of_mem_map⟩

/-- The characters that are written have no line break among them. -/
theorem lineBreak_not_mem_encodeChars (bytes : List UInt8) : '\n' ∉ encodeChars bytes := by
  intro h
  have other := isBlank_of_mem_encodeChars h
  exact absurd other (by decide)

/-! ## 2. Lines -/

/-- Some characters in lines of 76: every line is full but the last, which is not empty. -/
structure Ruled (ls : List (List Char)) (cs : List Char) : Prop where
  flatten_eq : ls.flatten = cs
  full : ∀ l ∈ ls.dropLast, l.length = 76
  last : ∀ l, ls.getLast? = some l → 1 ≤ l.length ∧ l.length ≤ 76

theorem ruled_nil_iff {cs : List Char} : Ruled [] cs ↔ cs = [] := by
  constructor
  · intro h
    exact h.flatten_eq.symm
  · rintro rfl
    exact ⟨rfl, fun l hl => absurd hl List.not_mem_nil, fun l hl => by cases hl⟩

theorem ruled_singleton_iff {l cs : List Char} :
    Ruled [l] cs ↔ cs = l ∧ 1 ≤ l.length ∧ l.length ≤ 76 := by
  have flat : [l].flatten = l := by simp
  constructor
  · intro h
    exact ⟨h.flatten_eq.symm.trans flat, h.last l rfl⟩
  · rintro ⟨rfl, h⟩
    refine ⟨flat, fun m hm => absurd hm List.not_mem_nil, fun m hm => ?_⟩
    obtain rfl := Option.some.inj hm
    exact h

/-- A line with others behind it is full, and those are ruled themselves. -/
theorem ruled_cons_cons_iff {l m cs : List Char} {ls : List (List Char)} :
    Ruled (l :: m :: ls) cs ↔ l.length = 76 ∧ ∃ rest, cs = l ++ rest ∧ Ruled (m :: ls) rest := by
  constructor
  · rintro ⟨rfl, full, last⟩
    rw [List.dropLast_cons_cons, List.forall_mem_cons] at full
    rw [List.getLast?_cons_cons] at last
    exact ⟨full.1, (m :: ls).flatten, List.flatten_cons, rfl, full.2, last⟩
  · rintro ⟨first, rest, rfl, rfl, full, last⟩
    refine ⟨List.flatten_cons, ?_, ?_⟩
    · rw [List.dropLast_cons_cons, List.forall_mem_cons]
      exact ⟨first, full⟩
    · rw [List.getLast?_cons_cons]
      exact last

/-- The lines that are cut off are ruled. -/
theorem ruled_lines (cs : List Char) : Ruled (lines cs) cs := by
  fun_induction lines cs with
  | case1 => exact ruled_nil_iff.mpr rfl
  | case2 cs nonempty ih =>
    have positive : 0 < cs.length := List.length_pos_iff.mpr nonempty
    by_cases last : cs.drop lineLength = []
    · have short : cs.length ≤ lineLength := List.drop_eq_nil_iff.mp last
      rw [last, lines_nil, List.take_of_length_le short, ruled_singleton_iff]
      exact ⟨rfl, positive, short⟩
    · have full : (cs.take lineLength).length = 76 := by
        rw [List.drop_eq_nil_iff, lineLength] at last
        rw [List.length_take, lineLength]
        omega
      rw [lines_of_ne_nil last] at ih ⊢
      exact ruled_cons_cons_iff.mpr
        ⟨full, cs.drop lineLength, (List.take_append_drop _ _).symm, ih⟩

/-- No other lines are. -/
theorem Ruled.eq_lines {ls : List (List Char)} {cs : List Char} (h : Ruled ls cs) :
    ls = lines cs := by
  induction ls generalizing cs with
  | nil => rw [ruled_nil_iff.mp h, lines_nil]
  | cons l ls ih =>
    cases ls with
    | nil =>
      obtain ⟨rfl, positive, short⟩ := ruled_singleton_iff.mp h
      have short : cs.length ≤ lineLength := short
      rw [lines_of_ne_nil (List.length_pos_iff.mp positive), List.take_of_length_le short,
        List.drop_of_length_le short, lines_nil]
    | cons m ls =>
      obtain ⟨full, rest, rfl, hrest⟩ := ruled_cons_cons_iff.mp h
      have full : l.length = lineLength := full
      have nonempty : l ++ rest ≠ [] := by
        rw [← List.length_pos_iff, List.length_append, full, lineLength]
        omega
      rw [ih hrest, lines_of_ne_nil nonempty, List.take_left' full, List.drop_left' full]

/-- **Characters are ruled in one way.** -/
theorem ruled_iff {ls : List (List Char)} {cs : List Char} : Ruled ls cs ↔ ls = lines cs := by
  constructor
  · exact Ruled.eq_lines
  · rintro rfl
    exact ruled_lines cs

theorem length_lines (cs : List Char) : (lines cs).length = (cs.length + 75) / 76 := by
  fun_induction lines cs with
  | case1 => rfl
  | case2 cs nonempty ih =>
    have positive : 0 < cs.length := List.length_pos_iff.mpr nonempty
    rw [List.length_cons, ih, List.length_drop, lineLength]
    omega

/-! ## 3. Line breaks -/

theorem length_breakLines (ls : List (List Char)) :
    (breakLines ls).length = ls.flatten.length + ls.length := by
  induction ls with
  | nil => rfl
  | cons l ls ih =>
    rw [breakLines_cons, List.length_append, List.length_cons, ih, List.flatten_cons,
      List.length_append, List.length_cons]
    omega

/-- Two breaks that stand together are not found in a line. -/
theorem doubleBreak_infix_append_iff {l cs : List Char} (h : '\n' ∉ l) :
    ['\n', '\n'] <:+: l ++ cs ↔ ['\n', '\n'] <:+: cs := by
  induction l with
  | nil => rfl
  | cons c l ih =>
    rw [List.mem_cons, not_or] at h
    rw [List.cons_append, List.infix_cons_iff, List.cons_prefix_cons, ih h.2]
    exact or_iff_right fun front => h.1 front.1

/-- Lines that are not empty leave no empty line. -/
theorem no_blank_line {ls : List (List Char)} (h : ∀ l ∈ ls, l ≠ [] ∧ '\n' ∉ l) :
    ¬ ['\n'] <+: breakLines ls ∧ ¬ ['\n', '\n'] <:+: breakLines ls := by
  induction ls with
  | nil => exact ⟨by decide, by decide⟩
  | cons l ls ih =>
    obtain ⟨⟨nonempty, unbroken⟩, rest⟩ := List.forall_mem_cons.mp h
    obtain ⟨front, apart⟩ := ih rest
    rw [breakLines_cons]
    constructor
    · obtain ⟨c, l, rfl⟩ := List.exists_cons_of_ne_nil nonempty
      rw [List.cons_append, List.cons_prefix_cons]
      rintro ⟨rfl, -⟩
      exact unbroken List.mem_cons_self
    · rw [doubleBreak_infix_append_iff unbroken, List.infix_cons_iff, List.cons_prefix_cons]
      rintro (⟨-, h⟩ | h)
      · exact front h
      · exact apart h

theorem ne_nil_of_mem_lines {cs l : List Char} (h : l ∈ lines cs) : l ≠ [] := by
  fun_induction lines cs with
  | case1 => exact absurd h List.not_mem_nil
  | case2 cs nonempty ih =>
    rcases List.mem_cons.mp h with rfl | h
    · exact take_lineLength_ne_nil nonempty
    · exact ih h

/-! ## 4. The text -/

theorem toList_encode_mime (bytes : List UInt8) :
    (Layout.mime.encode bytes).toList = breakLines (lines (encodeChars bytes)) := by
  rw [Layout.encode, String.toList_ofList, Layout.arrange_mime]

theorem length_encode_mime (bytes : List UInt8) :
    (Layout.mime.encode bytes).length =
      (encodeChars bytes).length + ((encodeChars bytes).length + 75) / 76 := by
  rw [← String.length_toList, toList_encode_mime, length_breakLines, flatten_lines, length_lines]

/-- **The shape of a text.**  In one line it is symbols and pad characters, four for every three
bytes.  In lines of 76 it is that line, ruled, with a break after each piece and none elsewhere. -/
theorem encode_shape (bytes : List UInt8) :
    (encode bytes).length = 4 * ((bytes.length + 2) / 3) ∧
    (∃ front, (encode bytes).toList = front ++ List.replicate ((3 - bytes.length % 3) % 3) '=' ∧
      ∀ c ∈ front, c ∈ alphabet) ∧
    (∀ t, t = Layout.mime.encode bytes ↔
      ∃ ls, Ruled ls (encode bytes).toList ∧ t.toList = breakLines ls) ∧
    (Layout.mime.encode bytes = "" ↔ bytes = []) ∧
    (¬ ['\n'] <+: (Layout.mime.encode bytes).toList ∧
      ¬ ['\n', '\n'] <:+: (Layout.mime.encode bytes).toList) ∧
    (Layout.mime.encode bytes).length =
      (encode bytes).length + ((encode bytes).length + 75) / 76 := by
  have characters : (encode bytes).toList = encodeChars bytes := String.toList_ofList
  have long : (encode bytes).length = 4 * ((bytes.length + 2) / 3) := by
    rw [← String.length_toList, characters, length_encodeChars]
  have longer : (Layout.mime.encode bytes).length =
      (encode bytes).length + ((encode bytes).length + 75) / 76 := by
    rw [← String.length_toList (s := encode bytes), characters]
    exact length_encode_mime bytes
  refine ⟨long, characters ▸ exists_symbols_encodeChars bytes, fun t => ?_, ?_, ?_, longer⟩
  · rw [characters, ← String.toList_inj, toList_encode_mime]
    simp only [ruled_iff, exists_eq_left]
  · rw [← String.length_eq_zero_iff, ← List.length_eq_zero_iff]
    omega
  · rw [toList_encode_mime]
    refine no_blank_line fun l hl => ⟨ne_nil_of_mem_lines hl, fun h => ?_⟩
    refine lineBreak_not_mem_encodeChars bytes ?_
    rw [← flatten_lines (encodeChars bytes)]
    exact List.mem_flatten.mpr ⟨l, hl, h⟩

/-- These bytes fill one line, and there is no second. -/
example : (Layout.mime.encode (List.replicate 57 0)).toList = List.replicate 76 'A' ++ ['\n'] := by
  rfl

end Base64
end PasswordSeal
