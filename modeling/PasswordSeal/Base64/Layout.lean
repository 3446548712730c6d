/-
# Layouts of Base64 text

The text may stand in one line, or in lines of 76 characters as mail does.  In the second
layout every line ends in a line break, the last one too, and only the last may be shorter, so
the text of no bytes has no line at all.  Line breaks are blanks, so both layouts read alike.

**Written by characters, understood by lines.**  `wrap` goes through the characters once and
knows no lines: it breaks in front of a character that has a multiple of the width before it, and
once more at the end.  `arrange_mime` says that this comes to cutting the characters into lines
and writing a line break after each.
-/
import PasswordSeal.Base64.Basic

namespace PasswordSeal
namespace Base64

/-! ## 1. Writing in lines -/

/-- How a text is cut into lines. -/
inductive Layout where
  /-- One line, without a line break. -/
  | singleLine
  /-- Lines of `lineLength` characters, each with its line break. -/
  | mime
  deriving DecidableEq, Repr, Inhabited

/-- The length of a full line in the `mime` layout, without its line break. -/
def lineLength : Nat := 76

/-- The rest of a text of which `i` characters are written, with a line break in front of each
character that would be one too many for its line. -/
def wrapFrom (width i : Nat) : List Char → List Char
  | [] => []
  | c :: cs =>
    if 0 < i ∧ i % width = 0 then '\n' :: c :: wrapFrom width (i + 1) cs
    else c :: wrapFrom width (i + 1) cs

/-- Some characters with a line break after `width` of them, and one after the last. -/
def wrap (width : Nat) (cs : List Char) : List Char :=
  wrapFrom width 0 cs ++ if cs = [] then [] else ['\n']

namespace Layout

/-- The characters of a text, arranged in a layout. -/
def arrange : Layout → List Char → List Char
  | singleLine, cs => cs
  | mime, cs => wrap lineLength cs

/-- The text that writes some bytes, in a layout. -/
def encode (layout : Layout) (bytes : List UInt8) : String :=
  String.ofList (layout.arrange (encodeChars bytes))

end Layout

/-! ## 2. Lines -/

/-- Some characters cut into lines: all full but the last, and none empty. -/
def lines (cs : List Char) : List (List Char) :=
  if cs = [] then [] else cs.take lineLength :: lines (cs.drop lineLength)
termination_by cs.length
decreasing_by
  have := List.length_pos_iff.mpr ‹¬cs = []›
  simp only [List.length_drop, lineLength]
  omega

/-- Lines with the line break after each. -/
def breakLines (ls : List (List Char)) : List Char := ls.flatMap (· ++ ['\n'])

theorem lines_nil : lines [] = [] := by
  rw [lines, if_pos rfl]

theorem lines_of_ne_nil {cs : List Char} (h : cs ≠ []) :
    lines cs = cs.take lineLength :: lines (cs.drop lineLength) := by
  rw [lines, if_neg h]

theorem breakLines_cons (l : List Char) (ls : List (List Char)) :
    breakLines (l :: ls) = l ++ '\n' :: breakLines ls := by
  rw [breakLines, List.flatMap_cons, List.append_assoc]
  rfl

theorem take_lineLength_ne_nil {cs : List Char} (h : cs ≠ []) : cs.take lineLength ≠ [] := by
  rw [ne_eq, List.take_eq_nil_iff, not_or]
  exact ⟨by decide, h⟩

/-- The lines put end to end are the characters again. -/
theorem flatten_lines (cs : List Char) : (lines cs).flatten = cs := by
  fun_induction lines cs with
  | case1 => rfl
  | case2 cs _ ih => simp [ih]

/-! ## 3. Where the breaks are -/

theorem wrapFrom_append (width i : Nat) (xs ys : List Char) :
    wrapFrom width i (xs ++ ys) = wrapFrom width i xs ++ wrapFrom width (i + xs.length) ys := by
  induction xs generalizing i with
  | nil => rfl
  | cons x xs ih =>
    have next : i + (x :: xs).length = i + 1 + xs.length := by
      rw [List.length_cons]
      omega
    rw [next, List.cons_append, wrapFrom, wrapFrom, ih]
    split
    · rfl
    · rfl

/-- Inside a line there is no break. -/
theorem wrapFrom_inside {width i : Nat} {xs : List Char} (begun : 0 < i % width)
    (fits : i % width + xs.length ≤ width) : wrapFrom width i xs = xs := by
  induction xs generalizing i with
  | nil => rfl
  | cons x xs ih =>
    rw [List.length_cons] at fits
    rw [wrapFrom, if_neg fun h => Nat.ne_of_gt begun h.2]
    cases xs with
    | nil => rfl
    | cons y xs =>
      have next : (i + 1) % width = i % width + 1 := by
        rw [List.length_cons] at fits
        rw [← Nat.mod_add_mod, Nat.mod_eq_of_lt (by omega)]
      rw [ih (by omega) (by omega)]

/-- A line begins with a break, unless it is the first. -/
theorem wrapFrom_line {width k : Nat} {xs : List Char} (nonempty : xs ≠ [])
    (fits : xs.length ≤ width) :
    wrapFrom width (k * width) xs = (if 0 < k then ['\n'] else []) ++ xs := by
  obtain ⟨x, xs, rfl⟩ := List.exists_cons_of_ne_nil nonempty
  rw [List.length_cons] at fits
  have rest : wrapFrom width (k * width + 1) xs = xs := by
    cases xs with
    | nil => rfl
    | cons y xs =>
      rw [List.length_cons] at fits
      have one : (k * width + 1) % width = 1 := by
        rw [Nat.mul_add_mod_self_right, Nat.mod_eq_of_lt (by omega)]
      refine wrapFrom_inside ?_ ?_
      · omega
      · rw [List.length_cons]
        omega
  have breaks : 0 < k * width ∧ k * width % width = 0 ↔ 0 < k := by
    rw [Nat.mul_mod_left, Nat.mul_pos_iff_of_pos_right (by omega)]
    exact and_iff_left rfl
  rw [wrapFrom, rest]
  by_cases first : 0 < k
  · rw [if_pos (breaks.mpr first), if_pos first]
    rfl
  · rw [if_neg fun h => first (breaks.mp h), if_neg first]
    rfl

/-- What is written from the beginning of line `k` on. -/
theorem wrapFrom_lines (k : Nat) {cs : List Char} (nonempty : cs ≠ []) :
    wrapFrom lineLength (k * lineLength) cs ++ ['\n'] =
      (if 0 < k then ['\n'] else []) ++ breakLines (lines cs) := by
  fun_induction lines cs generalizing k with
  | case1 => exact absurd rfl nonempty
  | case2 cs _ ih =>
    have cut := wrapFrom_append lineLength (k * lineLength) (cs.take lineLength)
      (cs.drop lineLength)
    rw [List.take_append_drop] at cut
    rw [cut, wrapFrom_line (take_lineLength_ne_nil nonempty) (List.length_take_le _ _),
      breakLines_cons]
    by_cases last : cs.drop lineLength = []
    · rw [last, lines_nil]
      simp [wrapFrom, breakLines]
    · -- the line is full, so the next one begins where it ends
      have full : (cs.take lineLength).length = lineLength := by
        rw [List.drop_eq_nil_iff] at last
        rw [List.length_take]
        omega
      have next : k * lineLength + lineLength = (k + 1) * lineLength := by
        rw [Nat.add_mul, Nat.one_mul]
      rw [full, next, List.append_assoc, ih (k + 1) last, if_pos (Nat.succ_pos k),
        List.append_assoc]
      rfl

/-- **Wrapping writes the lines, with a break after each.** -/
theorem Layout.arrange_mime (cs : List Char) : mime.arrange cs = breakLines (lines cs) := by
  by_cases empty : cs = []
  · subst empty
    rw [lines_nil]
    rfl
  · have whole := wrapFrom_lines 0 empty
    rw [Nat.zero_mul, if_neg (Nat.lt_irrefl 0), List.nil_append] at whole
    rw [arrange, wrap, if_neg empty, whole]

end Base64
end PasswordSeal
