/-
# Where bytes stop being text

Bytes that cannot be read have a fault.  `decode_eq_error_iff` says what it tells, without the
table of first bytes:

* `validUpTo` is the length of the longest beginning that is text.
* What stands behind it is not empty.  When it is the beginning of a character, cut short, more
  input could mend it, and the fault has no length.
* Otherwise the length is that of the longest beginning that some character has too, and at least
  one.  A character of four bytes is the longest, so it is never more than three.

**The table knows all beginnings of characters.**  Bytes that lie in the ranges of a first byte, as
far as they go (`Admits`), can always be completed to a character, because no range is empty
(`startsCharacter_cons_iff`).  So the reader, which goes through the ranges, stops at the first byte
that no character could have there.
-/
import PasswordSeal.Proofs.Utf8.Text

namespace PasswordSeal
namespace Utf8

open Outcome

/-! ## 1. Beginnings -/

/-- The longest beginning of some bytes that has the property `P` is `n` bytes long. -/
structure LongestBeginning (P : List UInt8 → Prop) (bytes : List UInt8) (n : Nat) : Prop where
  attained : ∃ p, p <+: bytes ∧ P p ∧ p.length = n
  longest : ∀ p, p <+: bytes → P p → p.length ≤ n

/-- Some bytes write a text. -/
def IsText (bytes : List UInt8) : Prop := ∃ s : String, bytes = encode s

/-- A character begins with some bytes. -/
def StartsCharacter (bytes : List UInt8) : Prop := ∃ c : Char, bytes <+: String.utf8EncodeChar c

/-- Some bytes are a character cut short. -/
def BreaksOff (bytes : List UInt8) : Prop :=
  ∃ c : Char, bytes <+: String.utf8EncodeChar c ∧ bytes ≠ String.utf8EncodeChar c

/-- **What a fault tells about some bytes.** -/
structure Fault.Locates (f : Fault) (bytes : List UInt8) : Prop where
  validUpTo : LongestBeginning IsText bytes f.validUpTo
  rest_ne_nil : bytes.drop f.validUpTo ≠ []
  /-- More input could mend it. -/
  incomplete : f.errorLength = none ↔ BreaksOff (bytes.drop f.validUpTo)
  /-- No input can. -/
  invalid : ¬ BreaksOff (bytes.drop f.validUpTo) →
    ∃ n, LongestBeginning StartsCharacter (bytes.drop f.validUpTo) n ∧
      f.errorLength = some (max 1 n) ∧ max 1 n ≤ 3

/-! ## 2. Bytes that lie in ranges as far as they go -/

/-- Some bytes lie in the first of some ranges, one in each. -/
def Admits : List ByteRange → List UInt8 → Prop
  | _, [] => True
  | r :: rs, b :: bs => r.contains b = true ∧ Admits rs bs
  | [], _ :: _ => False

theorem admits_nil (rs : List ByteRange) : Admits rs [] := by
  cases rs with
  | nil => trivial
  | cons r rs => trivial

theorem Admits.of_isPrefix {rs : List ByteRange} {p bytes : List UInt8} (h : Admits rs bytes)
    (hp : p <+: bytes) : Admits rs p := by
  induction p generalizing rs bytes with
  | nil => exact admits_nil rs
  | cons b p ih =>
    obtain ⟨rest, rfl⟩ := hp
    cases rs with
    | nil => exact h.elim
    | cons r rs => exact ⟨h.1, ih h.2 (List.prefix_append p rest)⟩

theorem inRanges_iff_admits {rs : List ByteRange} {bytes : List UInt8} :
    InRanges rs bytes ↔ Admits rs bytes ∧ bytes.length = rs.length := by
  induction rs generalizing bytes with
  | nil => cases bytes <;> simp [InRanges, Admits]
  | cons r rs ih => cases bytes <;> simp [InRanges, Admits, ih, and_assoc]

/-- Bytes in ranges that are not empty can be completed. -/
theorem Admits.exists_inRanges {rs : List ByteRange} (inhabited : ∀ r ∈ rs, r.contains r.low = true)
    {bytes : List UInt8} (h : Admits rs bytes) : ∃ more, InRanges rs (bytes ++ more) := by
  induction rs generalizing bytes with
  | nil =>
    cases bytes with
    | nil => exact ⟨[], trivial⟩
    | cons b bytes => exact h.elim
  | cons r rs ih =>
    obtain ⟨hr, hrs⟩ := List.forall_mem_cons.mp inhabited
    cases bytes with
    | nil =>
      obtain ⟨more, hmore⟩ := ih hrs (admits_nil rs)
      exact ⟨r.low :: more, hr, hmore⟩
    | cons b bytes =>
      obtain ⟨more, hmore⟩ := ih hrs h.2
      exact ⟨more, h.1, hmore⟩

/-! ## 3. How reading ends without a character -/

theorem follow_eq_incomplete_iff {bits seen : Nat} {rs : List ByteRange} {bytes : List UInt8} :
    follow bits seen rs bytes = .incomplete ↔ Admits rs bytes ∧ bytes.length < rs.length := by
  induction rs generalizing bits seen bytes with
  | nil => simp [follow]
  | cons r rs ih =>
    cases bytes with
    | nil => simp [follow, Admits]
    | cons b bytes =>
      rw [follow, Admits]
      split
      · rename_i hb
        rw [ih, List.length_cons, List.length_cons, Nat.succ_lt_succ_iff, and_iff_right hb]
      · rename_i hb
        simp [hb]

/-- **A byte is bad when it lies in its range no more.**  The bytes before it do. -/
theorem exists_of_follow_eq_invalid {bits seen n : Nat} {rs : List ByteRange} {bytes : List UInt8}
    (h : follow bits seen rs bytes = .invalid n) :
    ∃ good b rest, bytes = good ++ b :: rest ∧ Admits rs good ∧ ¬ Admits rs (good ++ [b]) ∧
      good.length < rs.length ∧ n = seen + good.length := by
  induction rs generalizing bits seen bytes with
  | nil => cases h
  | cons r rs ih =>
    cases bytes with
    | nil => cases h
    | cons b bytes =>
      rw [follow] at h
      split at h
      · rename_i hb
        obtain ⟨good, c, rest, rfl, hgood, hbad, short, rfl⟩ := ih h
        refine ⟨b :: good, c, rest, rfl, ⟨hb, hgood⟩, fun h => hbad h.2, Nat.succ_lt_succ short, ?_⟩
        rw [List.length_cons]
        omega
      · rename_i hb
        obtain rfl := Reading.invalid.inj h
        exact ⟨[], b, bytes, rfl, trivial, fun h => hb h.1, Nat.zero_lt_succ _, rfl⟩

/-! ## 4. The table and the characters -/

/-- No range in the table is empty, and at most three follow a byte. -/
theorem following_of_lead? {b : UInt8} {l : Lead} (h : lead? b = some l) :
    (∀ r ∈ l.following, r.contains r.low = true) ∧ l.following.length ≤ 3 := by
  have all : ∀ b, (lead? b).all fun l =>
      l.following.all (fun r => r.contains r.low) && decide (l.following.length ≤ 3) := by
    decide +kernel
  have here := all b
  rw [h] at here
  obtain ⟨inhabited, short⟩ := Bool.and_eq_true_iff.mp here
  exact ⟨List.all_eq_true.mp inhabited, of_decide_eq_true short⟩

/-- The characters that begin with a byte are the bytes that lie in its ranges. -/
theorem exists_utf8EncodeChar_iff {b : UInt8} {tail : List UInt8} :
    (∃ c, b :: tail = String.utf8EncodeChar c) ↔
      ∃ l, lead? b = some l ∧ InRanges l.following tail := by
  constructor
  · rintro ⟨c, h⟩
    obtain ⟨l, hl, hin, -⟩ := spells_iff.mpr h
    exact ⟨l, hl, hin⟩
  · rintro ⟨l, hl, hin⟩
    exact ⟨_, spells_iff.mp ⟨l, hl, hin, rfl⟩⟩

/-- **The bytes that characters begin with are those that lie in ranges as far as they go.** -/
theorem startsCharacter_cons_iff {b : UInt8} {tail : List UInt8} :
    StartsCharacter (b :: tail) ↔ ∃ l, lead? b = some l ∧ Admits l.following tail := by
  constructor
  · rintro ⟨c, more, h⟩
    obtain ⟨l, hl, hin⟩ := exists_utf8EncodeChar_iff.mp ⟨c, h⟩
    exact ⟨l, hl, (inRanges_iff_admits.mp hin).1.of_isPrefix (List.prefix_append tail more)⟩
  · rintro ⟨l, hl, hadmits⟩
    obtain ⟨more, hin⟩ := hadmits.exists_inRanges (following_of_lead? hl).1
    obtain ⟨c, h⟩ := exists_utf8EncodeChar_iff.mpr ⟨l, hl, hin⟩
    exact ⟨c, more, h⟩

/-- They are a character cut short while a range is left. -/
theorem breaksOff_cons_iff {b : UInt8} {tail : List UInt8} :
    BreaksOff (b :: tail) ↔
      ∃ l, lead? b = some l ∧ Admits l.following tail ∧ tail.length < l.following.length := by
  constructor
  · rintro ⟨c, ⟨more, h⟩, cut⟩
    obtain ⟨l, hl, hin⟩ := exists_utf8EncodeChar_iff.mp ⟨c, h⟩
    obtain ⟨hadmits, full⟩ := inRanges_iff_admits.mp hin
    refine ⟨l, hl, hadmits.of_isPrefix (List.prefix_append tail more), ?_⟩
    have some : more ≠ [] := by
      rintro rfl
      rw [List.append_nil] at h
      exact cut h
    have positive := List.length_pos_iff.mpr some
    rw [List.append_eq, List.length_append] at full
    omega
  · rintro ⟨l, hl, hadmits, short⟩
    obtain ⟨more, hin⟩ := hadmits.exists_inRanges (following_of_lead? hl).1
    obtain ⟨c, h⟩ := exists_utf8EncodeChar_iff.mpr ⟨l, hl, hin⟩
    refine ⟨c, ⟨more, h⟩, fun whole => ?_⟩
    have full := (inRanges_iff_admits.mp hin).2
    rw [List.cons_inj_right .. |>.mp (h.trans whole.symm)] at full
    omega

/-! ## 5. Reading one character -/

theorem read_eq_incomplete_iff {b : UInt8} {bytes : List UInt8} :
    read b bytes = .incomplete ↔ BreaksOff (b :: bytes) := by
  rw [breaksOff_cons_iff, read]
  cases lead? b with
  | none => simp
  | some l => simp [follow_eq_incomplete_iff]

/-- **As many bytes are bad as some character begins with,** and at least one. -/
theorem longestBeginning_of_read_eq_invalid {b : UInt8} {bytes : List UInt8} {n : Nat}
    (h : read b bytes = .invalid n) :
    ∃ m, LongestBeginning StartsCharacter (b :: bytes) m ∧ n = max 1 m ∧ n ≤ 3 := by
  rw [read] at h
  cases hl : lead? b with
  | none =>
    rw [hl] at h
    obtain rfl := Reading.invalid.inj h
    refine ⟨0, ⟨⟨[], List.nil_prefix, ⟨'a', List.nil_prefix⟩, rfl⟩, fun p hp hstarts => ?_⟩, rfl,
      by decide⟩
    cases p with
    | nil => exact Nat.le_refl _
    | cons c p =>
      obtain rfl := (List.cons_prefix_cons.mp hp).1
      obtain ⟨l, hl', -⟩ := startsCharacter_cons_iff.mp hstarts
      cases hl.symm.trans hl'
  | some l =>
    rw [hl] at h
    obtain ⟨good, c, rest, rfl, hgood, hbad, short, rfl⟩ := exists_of_follow_eq_invalid h
    have three := (following_of_lead? hl).2
    refine ⟨1 + good.length, ⟨⟨b :: good, ?_, startsCharacter_cons_iff.mpr ⟨l, hl, hgood⟩, ?_⟩,
      fun p hp hstarts => ?_⟩, by omega, by omega⟩
    · exact List.cons_prefix_cons.mpr ⟨rfl, List.prefix_append ..⟩
    · rw [List.length_cons, Nat.add_comm]
    cases p with
    | nil => exact Nat.zero_le _
    | cons d p =>
      obtain ⟨rfl, hbehind⟩ := List.cons_prefix_cons.mp hp
      obtain ⟨l', hl', hadmits⟩ := startsCharacter_cons_iff.mp hstarts
      obtain rfl := Option.some.inj (hl.symm.trans hl')
      -- A longer beginning would hold the bad byte.
      refine Nat.le_of_not_lt fun longer => ?_
      have upToBad : good ++ [c] <+: good ++ c :: rest := ⟨rest, List.append_assoc good [c] rest⟩
      refine hbad (hadmits.of_isPrefix (List.prefix_of_prefix_length_le upToBad hbehind ?_))
      rw [List.length_append, List.length_singleton]
      rw [List.length_cons] at longer
      omega

/-! ## 6. Reading text -/

/-- A character in front of some bytes is settled by them. -/
theorem utf8EncodeChar_append_inj {c d : Char} {x y : List UInt8}
    (h : String.utf8EncodeChar c ++ x = String.utf8EncodeChar d ++ y) : c = d ∧ x = y := by
  obtain ⟨b, tail, hc⟩ := List.exists_cons_of_ne_nil (String.utf8EncodeChar_ne_nil (c := c))
  have front : b :: (tail ++ x) = String.utf8EncodeChar c ++ x := by
    rw [hc, List.cons_append]
  have first := read_eq_character_iff.mpr front
  have second := read_eq_character_iff.mpr (front.trans h)
  exact Reading.character.inj (first.symm.trans second)

/-- Bytes have a fault where no character can be read behind the characters in front. -/
theorem exists_of_decodeFrom_eq_error {offset : Nat} {bytes : List UInt8} {f : Fault}
    (h : decodeFrom offset bytes = .error f) :
    ∃ cs b rest, bytes = encodeChars cs ++ b :: rest ∧
      f.validUpTo = offset + (encodeChars cs).length ∧
      (read b rest = .incomplete ∧ f.errorLength = none ∨
        ∃ n, read b rest = .invalid n ∧ f.errorLength = some n) := by
  fun_induction decodeFrom offset bytes with
  | case1 => cases h
  | case2 offset b bytes c rest hread hlength ih =>
    obtain ⟨cs, d, rest, rfl, hoffset, hfault⟩ := ih (map_eq_error_iff.mp h)
    refine ⟨c :: cs, d, rest, ?_, ?_, hfault⟩
    · rw [read_eq_character_iff.mp hread, encodeChars_cons, List.append_assoc]
    · rw [hoffset, encodeChars_cons, List.length_append, String.length_utf8EncodeChar,
        Nat.add_assoc]
  | case3 offset b bytes n hread =>
    obtain rfl := Except.error.inj h
    exact ⟨[], b, bytes, rfl, rfl, .inr ⟨n, hread, rfl⟩⟩
  | case4 offset b bytes hread =>
    obtain rfl := Except.error.inj h
    exact ⟨[], b, bytes, rfl, rfl, .inl ⟨hread, rfl⟩⟩

/-- Text does not go on where no character can be read. -/
theorem length_encodeChars_le {b : UInt8} {rest : List UInt8}
    (stop : ∀ c more, read b rest ≠ .character c more) {cs ds : List Char}
    (h : encodeChars ds <+: encodeChars cs ++ b :: rest) :
    (encodeChars ds).length ≤ (encodeChars cs).length := by
  induction cs generalizing ds with
  | nil =>
    cases ds with
    | nil => exact Nat.le_refl _
    | cons d ds =>
      obtain ⟨more, h⟩ := h
      rw [encodeChars_cons, List.append_assoc] at h
      exact absurd (read_eq_character_iff.mpr h.symm) (stop d _)
  | cons c cs ih =>
    cases ds with
    | nil => exact Nat.zero_le _
    | cons d ds =>
      obtain ⟨more, h⟩ := h
      rw [encodeChars_cons, encodeChars_cons, List.append_assoc, List.append_assoc] at h
      obtain ⟨rfl, hbehind⟩ := utf8EncodeChar_append_inj h
      rw [encodeChars_cons, encodeChars_cons, List.length_append, List.length_append]
      exact Nat.add_le_add_left (ih ⟨more, hbehind⟩) _

/-- Reading stops behind the longest text, at what is wrong there. -/
theorem locates_of_decode_eq_error {bytes : List UInt8} {f : Fault} (h : decode bytes = .error f) :
    f.Locates bytes := by
  obtain ⟨cs, b, rest, rfl, hvalid, hfault⟩ :=
    exists_of_decodeFrom_eq_error (map_eq_error_iff.mp h)
  rw [Nat.zero_add] at hvalid
  have behind : (encodeChars cs ++ b :: rest).drop f.validUpTo = b :: rest := by
    rw [hvalid, List.drop_left]
  have stop : ∀ c more, read b rest ≠ .character c more := by
    intro c more hread
    rcases hfault with ⟨hread', -⟩ | ⟨n, hread', -⟩
    · cases hread.symm.trans hread'
    · cases hread.symm.trans hread'
  have longest : LongestBeginning IsText (encodeChars cs ++ b :: rest) f.validUpTo := by
    refine ⟨⟨encodeChars cs, List.prefix_append .., ⟨String.ofList cs, ?_⟩, hvalid.symm⟩, ?_⟩
    · rw [encode, String.toList_ofList]
    · rintro _ hp ⟨s, rfl⟩
      rw [hvalid]
      exact length_encodeChars_le stop hp
  have nonempty : (encodeChars cs ++ b :: rest).drop f.validUpTo ≠ [] := by
    rw [behind]
    exact List.cons_ne_nil b rest
  rcases hfault with ⟨hread, hnone⟩ | ⟨n, hread, hsome⟩
  · have cut := read_eq_incomplete_iff.mp hread
    refine ⟨longest, nonempty, ?_, ?_⟩
    · rw [behind]
      exact iff_of_true hnone cut
    · rw [behind]
      exact fun whole => absurd cut whole
  · have whole : ¬ BreaksOff (b :: rest) := by
      intro cut
      cases hread.symm.trans (read_eq_incomplete_iff.mpr cut)
    obtain ⟨m, hm, rfl, three⟩ := longestBeginning_of_read_eq_invalid hread
    refine ⟨longest, nonempty, ?_, ?_⟩
    · rw [behind, hsome]
      exact iff_of_false (Option.some_ne_none _) whole
    · rw [behind]
      exact fun _ => ⟨m, hm, hsome, three⟩

/-- There is one longest beginning. -/
theorem LongestBeginning.unique {P : List UInt8 → Prop} {bytes : List UInt8} {m n : Nat}
    (hm : LongestBeginning P bytes m) (hn : LongestBeginning P bytes n) : m = n := by
  obtain ⟨p, hp, hP, rfl⟩ := hm.attained
  obtain ⟨q, hq, hQ, rfl⟩ := hn.attained
  exact Nat.le_antisymm (hn.longest p hp hP) (hm.longest q hq hQ)

/-- A fault is settled by what it tells. -/
theorem Fault.Locates.unique {f g : Fault} {bytes : List UInt8} (hf : f.Locates bytes)
    (hg : g.Locates bytes) : f = g := by
  obtain ⟨n, length⟩ := f
  obtain ⟨m, length'⟩ := g
  obtain rfl : n = m := hf.validUpTo.unique hg.validUpTo
  by_cases cut : BreaksOff (bytes.drop n)
  · obtain rfl : length = none := hf.incomplete.mpr cut
    obtain rfl : length' = none := hg.incomplete.mpr cut
    rfl
  · obtain ⟨k, hk, rfl, -⟩ := hf.invalid cut
    obtain ⟨l, hl, rfl, -⟩ := hg.invalid cut
    rw [hk.unique hl]

/-- Text has no fault: it would have to end before its end. -/
theorem Fault.Locates.ne_encode {f : Fault} {bytes : List UInt8} (h : f.Locates bytes)
    (s : String) : bytes ≠ encode s := by
  intro text
  have whole := h.validUpTo.longest bytes (List.prefix_refl bytes) ⟨s, text⟩
  exact h.rest_ne_nil (List.drop_eq_nil_of_le whole)

/-- **The fault of bytes that are no text** is the one that tells how much of them is, and what is
wrong behind it. -/
theorem decode_eq_error_iff {bytes : List UInt8} {f : Fault} :
    decode bytes = .error f ↔ f.Locates bytes := by
  constructor
  · exact locates_of_decode_eq_error
  · intro h
    cases hd : decode bytes with
    | ok s => exact absurd (decode_eq_ok_iff.mp hd) (h.ne_encode s)
    | error g => rw [h.unique (locates_of_decode_eq_error hd)]

end Utf8
end PasswordSeal
