/-
# The one text of some bytes

`Base64.decodeBytes` reads bytes from a text without blanks just when it is the text that
`Base64.encodeBytes` writes for them (`decodeBytes_eq_ok_iff`).  So there is no second text for
the same bytes: missing or further padding, and a last symbol with spare bits, are refused.

**Sextets first.**  Section 1 says which sextets are those of some bytes: they come in groups of
four, but the last group may have two or three, whose spare bits are zero.  Then `sextets` and
`ofSextets` are inverse to each other.

**The cut is forgotten.**  A text is read in two parts, the groups before the last one and the
last one.  `decodeBytes_eq_ok_iff_shape` puts them together again: symbols, then at most two pad
bytes that fill the last group.  The number of pad bytes follows from that of the symbols.
-/
import PasswordSeal.Base64.Basic
import PasswordSeal.Proofs.Outcome

namespace PasswordSeal
namespace Base64

open Outcome

/-! ## 1. Sextets of bytes -/

/-- Some sextets are those of some bytes: no bit of theirs is lost. -/
def Canonical : List Sextet → Prop
  | [] => True
  | [_] => False
  | [_, w] => w.val % 16 = 0
  | [_, _, x] => x.val % 4 = 0
  | _ :: _ :: _ :: _ :: rest => Canonical rest

theorem canonical_sextets (bytes : List UInt8) : Canonical (sextets bytes) := by
  fun_induction sextets bytes with
  | case1 => trivial
  | case2 a =>
    simp only [Canonical, Sextet.val_ofNat]
    omega
  | case3 a b =>
    simp only [Canonical, Sextet.val_ofNat]
    omega
  | case4 a b c rest ih => exact ih

/-- The bits of bytes that were cut into sextets are the bytes again. -/
theorem ofSextets_sextets (bytes : List UInt8) : ofSextets (sextets bytes) = bytes := by
  fun_induction sextets bytes with
  | case1 => rfl
  | case2 a =>
    have ha := a.toNat_lt
    simp only [ofSextets, List.cons.injEq, and_true, ← UInt8.toNat_inj, UInt8.toNat_ofNat',
      Sextet.val_ofNat]
    omega
  | case3 a b =>
    have ha := a.toNat_lt
    have hb := b.toNat_lt
    simp only [ofSextets, List.cons.injEq, and_true, ← UInt8.toNat_inj, UInt8.toNat_ofNat',
      Sextet.val_ofNat]
    omega
  | case4 a b c rest ih =>
    have ha := a.toNat_lt
    have hb := b.toNat_lt
    have hc := c.toNat_lt
    simp only [ofSextets, List.cons.injEq, ih, and_true, ← UInt8.toNat_inj, UInt8.toNat_ofNat',
      Sextet.val_ofNat]
    omega

/-- The other way only spare bits can be lost. -/
theorem sextets_ofSextets {vs : List Sextet} (h : Canonical vs) : sextets (ofSextets vs) = vs := by
  fun_induction Canonical vs with
  | case1 => rfl
  | case2 => exact h.elim
  | case3 v w =>
    simp only [ofSextets, sextets, List.cons.injEq, and_true, Fin.ext_iff, UInt8.toNat_ofNat',
      Sextet.val_ofNat]
    omega
  | case4 v w x =>
    simp only [ofSextets, sextets, List.cons.injEq, and_true, Fin.ext_iff, UInt8.toNat_ofNat',
      Sextet.val_ofNat]
    omega
  | case5 v w x y rest ih =>
    simp only [ofSextets, sextets, List.cons.injEq, ih h, and_true, Fin.ext_iff,
      UInt8.toNat_ofNat', Sextet.val_ofNat]
    omega

theorem eq_sextets_iff {vs : List Sextet} {bytes : List UInt8} :
    vs = sextets bytes ↔ Canonical vs ∧ ofSextets vs = bytes := by
  constructor
  · rintro rfl
    exact ⟨canonical_sextets bytes, ofSextets_sextets bytes⟩
  · rintro ⟨h, rfl⟩
    exact (sextets_ofSextets h).symm

/-- Whole groups in front lose no bit. -/
theorem canonical_append_iff {vs ws : List Sextet} (h : 4 ∣ vs.length) :
    Canonical (vs ++ ws) ↔ Canonical ws := by
  fun_induction Canonical vs with
  | case1 => rfl
  | case2 => exact absurd h (show ¬ 4 ∣ 1 by decide)
  | case3 => exact absurd h (show ¬ 4 ∣ 2 by decide)
  | case4 => exact absurd h (show ¬ 4 ∣ 3 by decide)
  | case5 v w x y rest ih => exact ih ((Nat.dvd_add_left (Nat.dvd_refl 4)).mp h)

/-- One group is canonical when it is not a sextet alone and its spare bits are zero. -/
theorem canonical_iff_spareBits {vs : List Sextet} (h : vs.length ≤ 4) :
    Canonical vs ↔ vs.length ≠ 1 ∧ spareBits vs = 0 := by
  match vs with
  | [] => simp [Canonical, spareBits]
  | [_] => simp [Canonical]
  | [_, _] => simp [Canonical, spareBits]
  | [_, _, _] => simp [Canonical, spareBits]
  | [_, _, _, _] => simp [Canonical, spareBits]
  | _ :: _ :: _ :: _ :: _ :: rest =>
    simp only [List.length_cons] at h
    omega

/-! ## 2. The parts of a text -/

/-- Symbols are read where symbols stand. -/
theorem readSymbols_eq_ok_iff {offset : Nat} {s : List UInt8} {vs : List Sextet} :
    readSymbols offset s = .ok vs ↔ s = vs.map symbol := by
  induction s generalizing offset vs with
  | nil =>
    rw [eq_comm (a := []), List.map_eq_nil_iff, readSymbols, Except.ok.injEq, eq_comm]
  | cons b rest ih =>
    rw [readSymbols]
    constructor
    · intro h
      split at h
      · cases h
      · obtain ⟨ws, hws, rfl⟩ := map_eq_ok_iff.mp h
        rw [List.map_cons, symbol_of_sextet? ‹_›, ih.mp hws]
    · intro h
      obtain ⟨v, ws, rfl, rfl, hws⟩ := List.map_eq_cons_iff.mp h.symm
      rw [sextet?_symbol]
      exact map_eq_ok_iff.mpr ⟨ws, ih.mpr hws.symm, rfl⟩

/-- A last group is read where symbols stand and then pad bytes, of which the first one has two
bytes before it. -/
theorem readLastGroup_eq_ok_iff {start i pads : Nat} {s : List UInt8} {vs : List Sextet} :
    readLastGroup start i s = .ok ⟨vs, pads⟩ ↔
      s = vs.map symbol ++ List.replicate pads padByte ∧ (pads = 0 ∨ 2 ≤ i + vs.length) := by
  induction s generalizing i vs with
  | nil =>
    rw [readLastGroup, Except.ok.injEq, LastGroup.mk.injEq]
    constructor
    · rintro ⟨rfl, rfl⟩
      exact ⟨rfl, .inl rfl⟩
    · rintro ⟨h, -⟩
      obtain ⟨hvs, hpads⟩ := List.append_eq_nil_iff.mp h.symm
      exact ⟨(List.map_eq_nil_iff.mp hvs).symm, ((List.replicate_eq_nil_iff padByte).mp hpads).symm⟩
  | cons b rest ih =>
    rw [readLastGroup]
    by_cases hb : b = padByte
    · subst hb
      rw [if_pos rfl]
      constructor
      · intro h
        split at h
        · rename_i hpad
          obtain ⟨rfl, rfl⟩ := LastGroup.mk.inj (Except.ok.inj h)
          have hrest := List.eq_replicate_iff.mpr ⟨rfl, hpad.2⟩
          refine ⟨?_, .inr (Nat.le_add_right_of_le hpad.1)⟩
          rw [List.map_nil, List.nil_append, List.replicate_succ, ← hrest]
        · cases h
      · rintro ⟨h, hpads⟩
        cases vs with
        | nil =>
          cases pads with
          | zero => cases h
          | succ pads =>
            obtain rfl := (List.cons.inj h).2
            rw [if_pos ⟨by simpa using hpads, fun c => List.eq_of_mem_replicate⟩,
              List.length_replicate]
        | cons v vs => exact absurd (List.cons.inj h).1.symm (symbol_ne_padByte v)
    · rw [if_neg hb]
      constructor
      · intro h
        split at h
        · cases h
        · obtain ⟨g, hg, heq⟩ := map_eq_ok_iff.mp h
          obtain ⟨rfl, rfl⟩ := LastGroup.mk.inj heq
          obtain ⟨rfl, hpads⟩ := ih.mp hg
          rw [List.map_cons, List.cons_append, symbol_of_sextet? ‹_›, List.length_cons]
          exact ⟨rfl, by omega⟩
      · rintro ⟨h, hpads⟩
        cases vs with
        | nil =>
          cases pads with
          | zero => cases h
          | succ pads => exact absurd (List.cons.inj h).1 hb
        | cons v vs =>
          obtain ⟨rfl, rfl⟩ := List.cons.inj h
          rw [sextet?_symbol]
          rw [List.length_cons] at hpads
          exact map_eq_ok_iff.mpr ⟨⟨vs, pads⟩, ih.mpr ⟨rfl, by omega⟩, rfl⟩

theorem LastGroup.check_eq_ok_iff {start pads : Nat} {vs : List Sextet} :
    LastGroup.check start ⟨vs, pads⟩ = .ok () ↔
      vs.length ≠ 1 ∧ (vs.length + pads) % 4 = 0 ∧ spareBits vs = 0 := by
  simp only [LastGroup.check]
  split
  · simp [*]
  split
  · simp [*]
  split
  · simp [*]
  · simp_all

/-- Only a text that is one byte longer than whole groups can be refused for its last byte. -/
theorem checkEnd_of_length {s : List UInt8} (h : s.length % 4 ≠ 1) : checkEnd s = .ok () := by
  unfold checkEnd
  split
  · rfl
  · rw [if_neg fun hs => h hs.1]

/-! ## 3. The whole text -/

/-- The steps of reading, each as what it asks of its part of the text. -/
theorem decodeBytes_eq_ok_iff_parts {s bytes : List UInt8} :
    decodeBytes s = .ok bytes ↔
      checkEnd s = .ok () ∧ ∃ front last pads,
        s.take (lastGroupStart s.length) = front.map symbol ∧
        s.drop (lastGroupStart s.length) = last.map symbol ++ List.replicate pads padByte ∧
        (pads = 0 ∨ 2 ≤ last.length) ∧
        (last.length ≠ 1 ∧ (last.length + pads) % 4 = 0 ∧ spareBits last = 0) ∧
        ofSextets (front ++ last) = bytes := by
  constructor
  · intro h
    obtain ⟨_, hend, h⟩ := bind_eq_ok_iff.mp h
    obtain ⟨front, hfront, h⟩ := bind_eq_ok_iff.mp h
    obtain ⟨⟨last, pads⟩, hlast, h⟩ := bind_eq_ok_iff.mp h
    obtain ⟨_, hcheck, h⟩ := bind_eq_ok_iff.mp h
    obtain ⟨hlast, hpads⟩ := readLastGroup_eq_ok_iff.mp hlast
    rw [Nat.zero_add] at hpads
    exact ⟨hend, front, last, pads, readSymbols_eq_ok_iff.mp hfront, hlast, hpads,
      LastGroup.check_eq_ok_iff.mp hcheck, Except.ok.inj h⟩
  · rintro ⟨hend, front, last, pads, hfront, hlast, hpads, hcheck, rfl⟩
    rw [← Nat.zero_add last.length] at hpads
    refine bind_eq_ok_iff.mpr ⟨(), hend, ?_⟩
    refine bind_eq_ok_iff.mpr ⟨front, readSymbols_eq_ok_iff.mpr hfront, ?_⟩
    refine bind_eq_ok_iff.mpr ⟨⟨last, pads⟩, readLastGroup_eq_ok_iff.mpr ⟨hlast, hpads⟩, ?_⟩
    exact bind_eq_ok_iff.mpr ⟨(), LastGroup.check_eq_ok_iff.mpr hcheck, rfl⟩

/-- A text without blanks is canonical symbols, and at most two pad bytes that fill the last
group. -/
theorem decodeBytes_eq_ok_iff_shape {s bytes : List UInt8} :
    decodeBytes s = .ok bytes ↔
      ∃ vs pads, s = vs.map symbol ++ List.replicate pads padByte ∧
        (pads ≤ 2 ∧ (vs.length + pads) % 4 = 0) ∧ Canonical vs ∧ ofSextets vs = bytes := by
  have hstart : lastGroupStart s.length = (s.length - 1) / 4 * 4 := rfl
  rw [decodeBytes_eq_ok_iff_parts]
  constructor
  · rintro ⟨-, front, last, pads, hfront, hlast, hpads, ⟨hcount, hfull, hspare⟩, rfl⟩
    have hs : s = (front ++ last).map symbol ++ List.replicate pads padByte := by
      rw [List.map_append, List.append_assoc, ← hlast, ← hfront, List.take_append_drop]
    have hfront := congrArg List.length hfront
    have hlast := congrArg List.length hlast
    simp only [List.length_take, List.length_drop, List.length_append, List.length_map,
      List.length_replicate] at hfront hlast
    refine ⟨front ++ last, pads, hs, ⟨by omega, by rw [List.length_append]; omega⟩, ?_, rfl⟩
    rw [canonical_append_iff (by omega), canonical_iff_spareBits (by omega)]
    exact ⟨hcount, hspare⟩
  · rintro ⟨vs, pads, hs, ⟨hpads, hfull⟩, hvs, rfl⟩
    have hlength : s.length = vs.length + pads := by simp [hs]
    have hle : lastGroupStart s.length ≤ vs.length := by omega
    have hcut : lastGroupStart s.length ≤ (vs.map symbol).length := by rwa [List.length_map]
    have hdrop := List.length_drop (i := lastGroupStart s.length) (l := vs)
    refine ⟨checkEnd_of_length (by omega), vs.take (lastGroupStart s.length),
      vs.drop (lastGroupStart s.length), pads, ?_, ?_, ?_, ?_, by rw [List.take_append_drop]⟩
    · rw [List.map_take, ← List.take_append_of_le_length hcut, ← hs]
    · rw [List.map_drop, ← List.drop_append_of_le_length hcut, ← hs]
    · omega
    · rw [← List.take_append_drop (lastGroupStart s.length) vs,
        canonical_append_iff (by rw [List.length_take]; omega),
        canonical_iff_spareBits (by omega)] at hvs
      exact ⟨hvs.1, by omega, hvs.2⟩

/-! ## 4. The text that is written -/

/-- The symbols of some bytes and their pad bytes fill groups of four. -/
theorem length_sextets_add_padCount (bytes : List UInt8) :
    (sextets bytes).length + padCount bytes.length = (bytes.length + 2) / 3 * 4 := by
  fun_induction sextets bytes with
  | case1 => rfl
  | case2 => simp [padCount]
  | case3 => simp [padCount]
  | case4 a b c rest ih =>
    simp only [List.length_cons, padCount] at ih ⊢
    omega

/-- **A text without blanks is read just where it is written.** -/
theorem decodeBytes_eq_ok_iff {s bytes : List UInt8} :
    decodeBytes s = .ok bytes ↔ s = encodeBytes bytes := by
  have hfull := length_sextets_add_padCount bytes
  have hpad : padCount bytes.length = (3 - bytes.length % 3) % 3 := rfl
  rw [decodeBytes_eq_ok_iff_shape]
  constructor
  · rintro ⟨vs, pads, rfl, hpads, hvs⟩
    obtain rfl := eq_sextets_iff.mpr hvs
    have same : pads = padCount bytes.length := by omega
    rw [encodeBytes, same]
  · rintro rfl
    exact ⟨sextets bytes, padCount bytes.length, rfl, by omega, eq_sextets_iff.mp rfl⟩

end Base64
end PasswordSeal
