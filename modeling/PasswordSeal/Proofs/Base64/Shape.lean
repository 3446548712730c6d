/-
# What the text of some bytes shows of their number

In a text that is written for some bytes, line breaks and pad characters stand where the number of
the bytes puts them.  `blot` takes all other characters away, and what is left is the same for all
bytes of one number, in either layout (`map_blot_encode`).  So two such texts have the same length,
and the same line breaks and pad characters in the same places (`sameShape_encode`).
-/
import PasswordSeal.Base64.Layout
import PasswordSeal.Proofs.Base64.Canonical

namespace PasswordSeal
namespace Base64

/-! ## 1. Shapes -/

/-- Two texts are as long as each other, and have line breaks and pad characters in the same
places. -/
structure SameShape (t u : String) : Prop where
  length_eq : t.length = u.length
  lineBreaks : ∀ i : Nat, t.toList[i]? = some '\n' ↔ u.toList[i]? = some '\n'
  pads : ∀ i : Nat, t.toList[i]? = some '=' ↔ u.toList[i]? = some '='

/-- Line breaks and pad characters are kept, and all others become one. -/
def blot (c : Char) : Char := if c = '\n' ∨ c = '=' then c else 'A'

theorem blot_eq_iff {c d : Char} (h : d = '\n' ∨ d = '=') : blot c = d ↔ c = d := by
  unfold blot
  split
  · rfl
  · rename_i other
    constructor
    · rintro rfl
      exact absurd h (by decide)
    · rintro rfl
      exact absurd h other

theorem sameShape_of_map_blot {t u : String} (h : t.toList.map blot = u.toList.map blot) :
    SameShape t u := by
  have kept (d : Char) (hd : d = '\n' ∨ d = '=') (i : Nat) (cs : List Char) :
      cs[i]? = some d ↔ (cs.map blot)[i]? = some d := by
    rw [List.getElem?_map, Option.map_eq_some_iff]
    constructor
    · intro hc
      exact ⟨d, hc, (blot_eq_iff hd).mpr rfl⟩
    · rintro ⟨c, hc, hblot⟩
      rw [hc, (blot_eq_iff hd).mp hblot]
  refine ⟨?_, fun i => ?_, fun i => ?_⟩
  · have length := congrArg List.length h
    rwa [List.length_map, List.length_map, String.length_toList, String.length_toList] at length
  · rw [kept '\n' (.inl rfl), h, ← kept '\n' (.inl rfl)]
  · rw [kept '=' (.inr rfl), h, ← kept '=' (.inr rfl)]

/-! ## 2. The characters that are written -/

theorem blot_symbol (v : Sextet) : blot (Char.ofUInt8 (symbol v)) = 'A' := by
  revert v
  decide

/-- Without its symbols the text of some bytes tells their number only. -/
theorem map_blot_encodeChars (bytes : List UInt8) :
    (encodeChars bytes).map blot =
      List.replicate ((bytes.length + 2) / 3 * 4 - padCount bytes.length) 'A' ++
        List.replicate (padCount bytes.length) '=' := by
  have count : (sextets bytes).length = (bytes.length + 2) / 3 * 4 - padCount bytes.length := by
    rw [← length_sextets_add_padCount, Nat.add_sub_cancel]
  have symbols : ((sextets bytes).map symbol).map (blot ∘ Char.ofUInt8) =
      List.replicate (sextets bytes).length 'A' := by
    rw [List.map_map, List.eq_replicate_iff, List.length_map]
    refine ⟨rfl, fun c hc => ?_⟩
    obtain ⟨v, -, rfl⟩ := List.mem_map.mp hc
    exact blot_symbol v
  rw [encodeChars, encodeBytes, List.map_map, List.map_append, symbols, List.map_replicate, count]
  rfl

/-! ## 3. Layouts -/

theorem map_lines (f : Char → Char) (cs : List Char) :
    (lines cs).map (List.map f) = lines (cs.map f) := by
  fun_induction lines cs with
  | case1 => exact lines_nil.symm
  | case2 cs nonempty ih =>
    have nonempty' : cs.map f ≠ [] := fun h => nonempty (List.map_eq_nil_iff.mp h)
    rw [List.map_cons, ih, lines_of_ne_nil nonempty', List.map_take, List.map_drop]

theorem map_breakLines {f : Char → Char} (h : f '\n' = '\n') (ls : List (List Char)) :
    (breakLines ls).map f = breakLines (ls.map (List.map f)) := by
  rw [breakLines, breakLines, List.map_flatMap, List.flatMap_map]
  simp only [List.map_append, List.map_cons, List.map_nil, h]

/-- Characters are arranged by their places, whatever they are. -/
theorem map_arrange {f : Char → Char} (h : f '\n' = '\n') (layout : Layout) (cs : List Char) :
    (layout.arrange cs).map f = layout.arrange (cs.map f) := by
  cases layout with
  | singleLine => rfl
  | mime => rw [Layout.arrange_mime, map_breakLines h, map_lines, Layout.arrange_mime]

theorem map_blot_encode (layout : Layout) {a b : List UInt8} (h : a.length = b.length) :
    (layout.encode a).toList.map blot = (layout.encode b).toList.map blot := by
  rw [Layout.encode, Layout.encode, String.toList_ofList, String.toList_ofList,
    map_arrange rfl, map_arrange rfl, map_blot_encodeChars, map_blot_encodeChars, h]

/-- **The texts of as many bytes look alike, but for their symbols.** -/
theorem sameShape_encode (layout : Layout) {a b : List UInt8} (h : a.length = b.length) :
    SameShape (layout.encode a) (layout.encode b) :=
  sameShape_of_map_blot (map_blot_encode layout h)

end Base64
end PasswordSeal
