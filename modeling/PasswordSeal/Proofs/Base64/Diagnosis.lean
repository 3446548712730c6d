/-
# What is wrong with a text that cannot be read

The reader goes through a text in steps: the last byte of a text that is too long by one, the groups
in front of the last one, the last group, and the numbers in it.  `decode_diagnosis` says what comes
of it without the steps.

* A text has a good shape when it is symbols and behind them pad bytes, no more of them than its
  length allows (`Shape`).  **Only a text of no good shape has a stray byte,** and then it is the
  first byte that is no symbol.  There is one exception: a text that is too long by one is blamed
  for its last byte, when that is no pad byte either.
* **A text of a good shape fails by its length,** when it is not whole groups: one symbol is left
  over, or the last group is not filled.
* In whole groups of a good shape only the last symbol can be wrong, by bits that belong to no byte.

So all faults are told apart by the shape, the length and the last symbol, whatever the order of the
steps (`decodeBytes_eq_error_iff`).
-/
import Mathlib.Algebra.Group.Nat.Defs
import PasswordSeal.Proofs.Base64.RoundTrip

namespace PasswordSeal
namespace Base64

open Outcome

/-! ## 1. Symbols -/

/-- The symbols as bytes, in the order of the numbers that they stand for. -/
def symbols : List UInt8 := Utf8.encodeChars alphabet

theorem mem_symbols_iff {b : UInt8} : b ∈ symbols ↔ ∃ v, symbol v = b := by
  have listed : symbols = (List.finRange 64).map symbol := by decide
  rw [listed, List.mem_map]
  exact ⟨fun ⟨v, _, h⟩ => ⟨v, h⟩, fun ⟨v, h⟩ => ⟨v, List.mem_finRange v, h⟩⟩

theorem sextet?_eq_none_iff {b : UInt8} : sextet? b = none ↔ b ∉ symbols := by
  rw [mem_symbols_iff]
  constructor
  · rintro h ⟨v, rfl⟩
    rw [sextet?_symbol] at h
    cases h
  · intro h
    cases hb : sextet? b with
    | none => rfl
    | some v => exact absurd ⟨v, symbol_of_sextet? hb⟩ h

theorem idxOf_symbol (v : Sextet) : symbols.idxOf (symbol v) = v.val := by
  revert v
  decide +kernel

/-- Symbols are those of some sextets. -/
theorem exists_map_symbol {s : List UInt8} (h : ∀ b ∈ s, b ∈ symbols) :
    ∃ vs : List Sextet, s = vs.map symbol := by
  induction s with
  | nil => exact ⟨[], rfl⟩
  | cons b s ih =>
    obtain ⟨hb, hs⟩ := List.forall_mem_cons.mp h
    obtain ⟨v, rfl⟩ := mem_symbols_iff.mp hb
    obtain ⟨vs, rfl⟩ := ih hs
    exact ⟨v :: vs, rfl⟩

/-! ## 2. Good shapes, and bytes that break them -/

/-- How many pad bytes a text of `n` bytes may end in, without its last group being too short for
them. -/
def maxPads (n : Nat) : Nat := if n % 4 = 0 then 2 else if n % 4 = 3 then 1 else 0

/-- A text is the symbols `front`, and `pads` pad bytes behind them. -/
structure Shape (s front : List UInt8) (pads : Nat) : Prop where
  eq_append : s = front ++ List.replicate pads padByte
  mem_symbols : ∀ b ∈ front, b ∈ symbols
  pads_le : pads ≤ maxPads s.length

theorem Shape.length_eq {s front : List UInt8} {pads : Nat} (h : Shape s front pads) :
    s.length = front.length + pads := by
  rw [h.eq_append, List.length_append, List.length_replicate]

/-- A text has a good shape. -/
def WellShaped (s : List UInt8) : Prop := ∃ front pads, Shape s front pads

/-- The first byte that is no symbol is `b`, at `offset`. -/
def FirstStray (s : List UInt8) (offset : Nat) (b : UInt8) : Prop :=
  ∃ front rest, s = front ++ b :: rest ∧ (∀ c ∈ front, c ∈ symbols) ∧ b ∉ symbols ∧
    offset = front.length

/-- The text is too long by one, and its last byte `b` has no place in any text. -/
def BadEnd (s : List UInt8) (b : UInt8) : Prop :=
  s.length % 4 = 1 ∧ s.getLast? = some b ∧ b ∉ symbols ∧ b ≠ padByte

/-- The byte that is blamed for a shape that is not good. -/
def Blamed (s : List UInt8) (offset : Nat) (b : UInt8) : Prop :=
  BadEnd s b ∧ offset = s.length - 1 ∨ (∀ c, ¬ BadEnd s c) ∧ FirstStray s offset b

/-! ## 3. The steps of the reader -/

theorem checkEnd_eq_error_iff {s : List UInt8} {e : Fault} :
    checkEnd s = .error e ↔ ∃ b, BadEnd s b ∧ e = .strayByte (s.length - 1) b := by
  unfold checkEnd BadEnd
  cases hs : s.getLast? with
  | none => simp
  | some b =>
    simp only [sextet?_eq_none_iff, Option.some.injEq]
    constructor
    · intro h
      split at h
      · rename_i bad
        exact ⟨b, ⟨bad.1, rfl, bad.2.2, bad.2.1⟩, (Except.error.inj h).symm⟩
      · cases h
    · rintro ⟨_, ⟨h1, rfl, stray, hpad⟩, rfl⟩
      rw [if_pos ⟨h1, hpad, stray⟩]

theorem checkEnd_eq_ok_iff {s : List UInt8} : checkEnd s = .ok () ↔ ∀ b, ¬ BadEnd s b := by
  constructor
  · intro h b bad
    have fails := checkEnd_eq_error_iff.mpr ⟨b, bad, rfl⟩
    cases h.symm.trans fails
  · intro h
    cases hs : checkEnd s with
    | ok => rfl
    | error e =>
      obtain ⟨b, bad, -⟩ := checkEnd_eq_error_iff.mp hs
      exact absurd bad (h b)

/-- Symbols are read up to the first byte that is none. -/
theorem readSymbols_append (offset : Nat) (vs : List Sextet) {b : UInt8} (hb : b ∉ symbols)
    (rest : List UInt8) :
    readSymbols offset (vs.map symbol ++ b :: rest) =
      .error (.strayByte (offset + vs.length) b) := by
  induction vs generalizing offset with
  | nil =>
    rw [List.map_nil, List.nil_append, readSymbols, sextet?_eq_none_iff.mpr hb]
    rfl
  | cons v vs ih =>
    rw [List.map_cons, List.cons_append, readSymbols, sextet?_symbol, List.length_cons,
      Nat.add_comm vs.length, ← Nat.add_assoc]
    exact congrArg (Except.map (v :: ·)) (ih (offset + 1))

/-- Where not all bytes are symbols, one is the first that is none. -/
theorem exists_firstStray {s : List UInt8} (h : ¬ ∀ b ∈ s, b ∈ symbols) :
    ∃ offset b, FirstStray s offset b := by
  induction s with
  | nil => exact absurd (fun b hb => absurd hb List.not_mem_nil) h
  | cons c s ih =>
    by_cases hc : c ∈ symbols
    · obtain ⟨_, b, front, rest, rfl, hfront, hb, -⟩ := ih fun hs =>
        h (List.forall_mem_cons.mpr ⟨hc, hs⟩)
      exact ⟨_, b, c :: front, rest, rfl, List.forall_mem_cons.mpr ⟨hc, hfront⟩, hb, rfl⟩
    · exact ⟨0, c, [], s, rfl, fun b hb => absurd hb List.not_mem_nil, hc, rfl⟩

/-- In the last group too, unless that byte begins its padding. -/
theorem readLastGroup_append (start i : Nat) (vs : List Sextet) {b : UInt8} (hb : b ∉ symbols)
    {rest : List UInt8}
    (padding : ¬ (b = padByte ∧ 2 ≤ i + vs.length ∧ ∀ c ∈ rest, c = padByte)) :
    readLastGroup start i (vs.map symbol ++ b :: rest) =
      .error (.strayByte (start + (i + vs.length)) b) := by
  induction vs generalizing i with
  | nil =>
    rw [List.length_nil, Nat.add_zero] at padding
    rw [List.map_nil, List.nil_append, readLastGroup]
    by_cases hpad : b = padByte
    · rw [if_pos hpad, if_neg fun h => padding ⟨hpad, h⟩, hpad]
      rfl
    · rw [if_neg hpad, sextet?_eq_none_iff.mpr hb]
      rfl
  | cons v vs ih =>
    have next : i + (v :: vs).length = i + 1 + vs.length := by
      rw [List.length_cons]
      omega
    rw [next] at padding ⊢
    rw [List.map_cons, List.cons_append, readLastGroup, if_neg (symbol_ne_padByte v),
      sextet?_symbol]
    exact congrArg (Except.map fun g => { g with values := v :: g.values }) (ih (i + 1) padding)

theorem LastGroup.check_eq_error_iff {start pads : Nat} {vs : List Sextet} {e : Fault} :
    LastGroup.check start ⟨vs, pads⟩ = .error e ↔
      (vs.length = 1 ∧ e = .loneSymbol (start + 1)) ∨
      (vs.length ≠ 1 ∧ (vs.length + pads) % 4 ≠ 0 ∧ e = .unfilledGroup) ∨
      (vs.length ≠ 1 ∧ (vs.length + pads) % 4 = 0 ∧ spareBits vs ≠ 0 ∧
        e = .spareBits (start + vs.length - 1) (symbol (vs.getLastD (.ofNat 0)))) := by
  simp only [LastGroup.check]
  by_cases one : vs.length = 1
  · simp [one, eq_comm (b := e)]
  by_cases full : (vs.length + pads) % 4 = 0
  · by_cases canonical : spareBits vs = 0
    · simp [one, full, canonical]
    · simp [one, full, canonical, eq_comm (b := e)]
  · simp [one, full, eq_comm (b := e)]

/-! ## 4. Texts of a good shape -/

theorem le_maxPads_iff {pads n : Nat} :
    pads ≤ maxPads n ↔ pads = 0 ∨ n % 4 = 0 ∧ pads ≤ 2 ∨ n % 4 = 3 ∧ pads ≤ 1 := by
  unfold maxPads
  split
  · omega
  split
  · omega
  · omega

/-- A text that is too long by one has no padding, if its shape is good. -/
theorem Shape.not_badEnd {s front : List UInt8} {pads : Nat} (h : Shape s front pads) (b : UInt8) :
    ¬ BadEnd s b := by
  rintro ⟨one, last, stray, -⟩
  have bare : pads = 0 := by
    have few := le_maxPads_iff.mp h.pads_le
    omega
  have all : s = front := by rw [h.eq_append, bare, List.replicate_zero, List.append_nil]
  rw [all] at last
  exact stray (h.mem_symbols b (List.mem_of_getLast? last))

/-- The last group of a text of a good shape is one symbol when the text is too long by one, and
otherwise as many bytes as the text has behind whole groups. -/
theorem length_drop_lastGroupStart {vs : List Sextet} {pads : Nat}
    (few : pads ≤ maxPads (vs.length + pads)) :
    let count := (vs.drop (lastGroupStart (vs.length + pads))).length
    lastGroupStart (vs.length + pads) + count = vs.length ∧
      (count + pads) % 4 = (vs.length + pads) % 4 ∧
      (count = 1 ↔ (vs.length + pads) % 4 = 1) := by
  intro count
  have hstart : lastGroupStart (vs.length + pads) = (vs.length + pads - 1) / 4 * 4 := rfl
  have hcount : count = vs.length - lastGroupStart (vs.length + pads) := List.length_drop
  have few := le_maxPads_iff.mp few
  refine ⟨?_, ?_, ?_⟩
  · omega
  · omega
  · omega

/-- Only the last group of a text of a good shape can be wrong. -/
theorem decodeBytes_of_shape {vs : List Sextet} {pads : Nat} {s : List UInt8}
    (h : Shape s (vs.map symbol) pads) :
    decodeBytes s = do
      LastGroup.check (lastGroupStart s.length) ⟨vs.drop (lastGroupStart s.length), pads⟩
      return ofSextets vs := by
  have length := h.length_eq
  rw [List.length_map] at length
  obtain ⟨place, -⟩ := length_drop_lastGroupStart (length ▸ h.pads_le)
  rw [← length] at place
  have cut : lastGroupStart s.length ≤ (vs.map symbol).length := by
    rw [List.length_map]
    omega
  have front : readSymbols 0 (s.take (lastGroupStart s.length)) =
      .ok (vs.take (lastGroupStart s.length)) := by
    rw [readSymbols_eq_ok_iff, List.map_take, ← List.take_append_of_le_length cut, ← h.eq_append]
  have last : readLastGroup (lastGroupStart s.length) 0 (s.drop (lastGroupStart s.length)) =
      .ok ⟨vs.drop (lastGroupStart s.length), pads⟩ := by
    rw [readLastGroup_eq_ok_iff, List.map_drop, ← List.drop_append_of_le_length cut,
      ← h.eq_append]
    refine ⟨rfl, ?_⟩
    have few := le_maxPads_iff.mp h.pads_le
    have hstart : lastGroupStart s.length = (s.length - 1) / 4 * 4 := rfl
    omega
  calc decodeBytes s
      = (do
          LastGroup.check (lastGroupStart s.length) ⟨vs.drop (lastGroupStart s.length), pads⟩
          return ofSextets
            (vs.take (lastGroupStart s.length) ++ vs.drop (lastGroupStart s.length))) := by
        simp only [decodeBytes, checkEnd_eq_ok_iff.mpr h.not_badEnd, front, last]
        rfl
    _ = _ := by rw [List.take_append_drop]

/-- The last symbol is wrong when it has bits that belong to no byte: two for each pad byte. -/
theorem spareBits_drop_ne_zero_iff {vs : List Sextet} {pads : Nat} (two : pads ≤ 2)
    (full : (vs.length + pads) % 4 = 0) :
    spareBits (vs.drop (lastGroupStart (vs.length + pads))) ≠ 0 ↔
      ∃ v, vs.getLast? = some v ∧ (pads = 2 ∧ v.val % 16 ≠ 0 ∨ pads = 1 ∧ v.val % 4 ≠ 0) := by
  have hstart : lastGroupStart (vs.length + pads) = (vs.length + pads - 1) / 4 * 4 := rfl
  have length := List.length_drop (i := lastGroupStart (vs.length + pads)) (l := vs)
  have groups : 4 ∣ (vs.take (lastGroupStart (vs.length + pads))).length := by
    rw [List.length_take]
    omega
  have canonical : spareBits (vs.drop (lastGroupStart (vs.length + pads))) = 0 ↔
      (vs.getLastD (Sextet.ofNat 0)).val % 4 ^ pads = 0 := by
    rw [← canonical_iff_getLastD two full,
      ← List.take_append_drop (lastGroupStart (vs.length + pads)) vs,
      canonical_append_iff groups, canonical_iff_spareBits (by omega), List.take_append_drop]
    exact ⟨fun h => ⟨by omega, h⟩, And.right⟩
  rw [ne_eq, canonical, List.getLastD_eq_getLast?]
  cases hv : vs.getLast? with
  | none =>
    rw [List.getLast?_eq_none_iff.mp hv, List.length_nil] at full
    have bare : pads = 0 := by omega
    simp [bare]
  | some v =>
    obtain rfl | rfl | rfl : pads = 0 ∨ pads = 1 ∨ pads = 2 := by omega
    · simp [Nat.mod_one]
    · simp
    · simp

/-- In whole groups the last symbol is blamed, at its place in the text. -/
theorem spareBits_fault_iff {vs : List Sextet} {pads : Nat} {e : Fault}
    (few : pads ≤ maxPads (vs.length + pads)) (full : (vs.length + pads) % 4 = 0) :
    let start := lastGroupStart (vs.length + pads)
    (spareBits (vs.drop start) ≠ 0 ∧ e = .spareBits (start + (vs.drop start).length - 1)
        (symbol ((vs.drop start).getLastD (Sextet.ofNat 0)))) ↔
      ∃ b, (vs.map symbol).getLast? = some b ∧
        (pads = 2 ∧ symbols.idxOf b % 16 ≠ 0 ∨ pads = 1 ∧ symbols.idxOf b % 4 ≠ 0) ∧
        e = .spareBits (vs.length + pads - 1 - pads) b := by
  intro start
  obtain ⟨place, groups, -⟩ := length_drop_lastGroupStart few
  have last {v : Sextet} (hv : vs.getLast? = some v) (padded : pads = 2 ∨ pads = 1) :
      (vs.drop start).getLastD (Sextet.ofNat 0) = v := by
    have inside : ¬ vs.length ≤ start := by omega
    rw [List.getLastD_eq_getLast?, List.getLast?_drop, if_neg inside, hv, Option.getD_some]
  have two : pads ≤ 2 := by
    have few := le_maxPads_iff.mp few
    omega
  have offset : vs.length + pads - 1 - pads = vs.length - 1 := by omega
  rw [spareBits_drop_ne_zero_iff two full, place, offset, List.getLast?_map]
  constructor
  · rintro ⟨⟨v, hv, bits⟩, rfl⟩
    refine ⟨symbol v, by rw [hv, Option.map_some], ?_, ?_⟩
    · rwa [idxOf_symbol]
    · rw [last hv (bits.imp And.left And.left)]
  · rintro ⟨_, hb, bits, rfl⟩
    obtain ⟨v, hv, rfl⟩ := Option.map_eq_some_iff.mp hb
    rw [idxOf_symbol] at bits
    refine ⟨⟨v, hv, bits⟩, ?_⟩
    rw [last hv (bits.imp And.left And.left)]

/-- What is wrong with a text of a good shape: its length, or the last of its symbols. -/
def ShapeFault (s front : List UInt8) (pads : Nat) (e : Fault) : Prop :=
  s.length % 4 = 1 ∧ e = .loneSymbol s.length ∨
  (s.length % 4 = 2 ∨ s.length % 4 = 3) ∧ e = .unfilledGroup ∨
  s.length % 4 = 0 ∧ ∃ b, front.getLast? = some b ∧
    (pads = 2 ∧ symbols.idxOf b % 16 ≠ 0 ∨ pads = 1 ∧ symbols.idxOf b % 4 ≠ 0) ∧
    e = .spareBits (s.length - 1 - pads) b

theorem decodeBytes_eq_error_iff_of_shape {s front : List UInt8} {pads : Nat}
    (h : Shape s front pads) {e : Fault} :
    decodeBytes s = .error e ↔ ShapeFault s front pads e := by
  obtain ⟨vs, rfl⟩ := exists_map_symbol h.mem_symbols
  have length := h.length_eq
  rw [List.length_map] at length
  have few : pads ≤ maxPads (vs.length + pads) := length ▸ h.pads_le
  obtain ⟨place, groups, lone⟩ := length_drop_lastGroupStart few
  have returned : ¬ ∃ a, LastGroup.check (lastGroupStart s.length)
      ⟨vs.drop (lastGroupStart s.length), pads⟩ = .ok a ∧
        (pure (ofSextets vs) : Except Fault _) = .error e := by
    rintro ⟨_, -, h⟩
    cases h
  rw [decodeBytes_of_shape h, bind_eq_error_iff, or_iff_left returned,
    LastGroup.check_eq_error_iff, ShapeFault, length]
  refine or_congr ?_ (or_congr ?_ ?_)
  · rw [lone]
    refine and_congr_right fun one => ?_
    have bare : pads = 0 := by
      have few := le_maxPads_iff.mp few
      omega
    rw [lone.mpr one] at place
    rw [place, bare, Nat.add_zero]
  · have unfilled : (vs.drop (lastGroupStart (vs.length + pads))).length ≠ 1 ∧
        ((vs.drop (lastGroupStart (vs.length + pads))).length + pads) % 4 ≠ 0 ↔
          (vs.length + pads) % 4 = 2 ∨ (vs.length + pads) % 4 = 3 := by
      rw [ne_eq, lone, groups]
      omega
    rw [← and_assoc, unfilled]
  · have filled : (vs.drop (lastGroupStart (vs.length + pads))).length ≠ 1 ∧
        ((vs.drop (lastGroupStart (vs.length + pads))).length + pads) % 4 = 0 ↔
          (vs.length + pads) % 4 = 0 := by
      rw [ne_eq, lone, groups]
      omega
    rw [← and_assoc, filled]
    exact and_congr_right fun full => spareBits_fault_iff few full

/-! ## 5. Texts of no good shape -/

/-- The first byte that is no symbol is the fault, unless the last byte is. -/
theorem decodeBytes_of_firstStray {s : List UInt8} {offset : Nat} {b : UInt8}
    (hend : ∀ c, ¬ BadEnd s c) (shapeless : ¬ WellShaped s) (h : FirstStray s offset b) :
    decodeBytes s = .error (.strayByte offset b) := by
  obtain ⟨front, rest, eq, hfront, hb, rfl⟩ := h
  obtain ⟨vs, rfl⟩ := exists_map_symbol hfront
  have hstart : lastGroupStart s.length = (s.length - 1) / 4 * 4 := rfl
  have length : s.length = vs.length + (rest.length + 1) := by
    rw [eq, List.length_append, List.length_map, List.length_cons]
  refine bind_eq_error_iff.mpr (.inr ⟨(), checkEnd_eq_ok_iff.mpr hend, ?_⟩)
  rw [List.length_map]
  by_cases inside : vs.length < lastGroupStart s.length
  · -- It stands in front of the last group.
    obtain ⟨k, hk⟩ : ∃ k, lastGroupStart s.length = (vs.map symbol).length + (k + 1) := by
      rw [List.length_map]
      exact ⟨lastGroupStart s.length - vs.length - 1, by omega⟩
    have cut := congrArg (List.take (lastGroupStart s.length)) eq
    rw [hk, List.take_length_add_append, List.take_succ_cons, ← hk] at cut
    refine bind_eq_error_iff.mpr (.inl ?_)
    rw [cut, readSymbols_append 0 vs hb, Nat.zero_add]
  · -- It stands in the last group, and does not begin its padding.
    have cut : lastGroupStart s.length ≤ (vs.map symbol).length := by
      rw [List.length_map]
      omega
    have front := congrArg (List.take (lastGroupStart s.length)) eq
    rw [List.take_append_of_le_length cut, ← List.map_take] at front
    have last := congrArg (List.drop (lastGroupStart s.length)) eq
    rw [List.drop_append_of_le_length cut, ← List.map_drop] at last
    have count := List.length_drop (i := lastGroupStart s.length) (l := vs)
    have place : vs.length =
        lastGroupStart s.length + (0 + (vs.drop (lastGroupStart s.length)).length) := by omega
    refine bind_eq_error_iff.mpr (.inr ⟨_, readSymbols_eq_ok_iff.mpr front, ?_⟩)
    refine bind_eq_error_iff.mpr (.inl ?_)
    rw [last, place]
    refine readLastGroup_append _ 0 _ hb ?_
    rintro ⟨rfl, early, hrest⟩
    refine shapeless ⟨vs.map symbol, rest.length + 1, ?_, hfront, le_maxPads_iff.mpr ?_⟩
    · rw [eq, List.replicate_succ, ← List.eq_replicate_iff.mpr ⟨rfl, hrest⟩]
    · omega

theorem decodeBytes_of_blamed {s : List UInt8} {offset : Nat} {b : UInt8}
    (shapeless : ¬ WellShaped s) (h : Blamed s offset b) :
    decodeBytes s = .error (.strayByte offset b) := by
  rcases h with ⟨bad, rfl⟩ | ⟨hend, stray⟩
  · exact bind_eq_error_iff.mpr (.inl (checkEnd_eq_error_iff.mpr ⟨b, bad, rfl⟩))
  · exact decodeBytes_of_firstStray hend shapeless stray

/-- A text of no good shape has a byte to blame. -/
theorem exists_blamed {s : List UInt8} (shapeless : ¬ WellShaped s) :
    ∃ offset b, Blamed s offset b := by
  by_cases bad : ∃ b, BadEnd s b
  · obtain ⟨b, bad⟩ := bad
    exact ⟨_, b, .inl ⟨bad, rfl⟩⟩
  · have symbolic : ¬ ∀ b ∈ s, b ∈ symbols := fun all =>
      shapeless ⟨s, 0, (List.append_nil s).symm, all, Nat.zero_le _⟩
    obtain ⟨offset, b, stray⟩ := exists_firstStray symbolic
    exact ⟨offset, b, .inr ⟨not_exists.mp bad, stray⟩⟩

/-! ## 6. All faults -/

/-- **The fault of a text,** told by its shape, its length and its last symbol. -/
theorem decodeBytes_eq_error_iff {s : List UInt8} {e : Fault} :
    decodeBytes s = .error e ↔
      (¬ WellShaped s ∧ ∃ offset b, Blamed s offset b ∧ e = .strayByte offset b) ∨
        ∃ front pads, Shape s front pads ∧ ShapeFault s front pads e := by
  by_cases shaped : WellShaped s
  · obtain ⟨front, pads, shape⟩ := shaped
    constructor
    · intro h
      exact .inr ⟨front, pads, shape, (decodeBytes_eq_error_iff_of_shape shape).mp h⟩
    · rintro (⟨shapeless, -⟩ | ⟨front, pads, shape, h⟩)
      · exact absurd ⟨front, pads, shape⟩ shapeless
      · exact (decodeBytes_eq_error_iff_of_shape shape).mpr h
  · constructor
    · intro h
      obtain ⟨offset, b, blamed⟩ := exists_blamed shaped
      rw [decodeBytes_of_blamed shaped blamed] at h
      exact .inl ⟨shaped, offset, b, blamed, (Except.error.inj h).symm⟩
    · rintro (⟨-, offset, b, blamed, rfl⟩ | ⟨front, pads, shape, -⟩)
      · exact decodeBytes_of_blamed shaped blamed
      · exact absurd ⟨front, pads, shape⟩ shaped

/-- **When each fault is reported,** for the bytes `s` of a text without its blanks. -/
structure Diagnosis (s : List UInt8) (answer : Except Fault (List UInt8)) : Prop where
  /-- A stray byte is reported just when the shape is not good. -/
  shapeless : (∃ offset b, answer = .error (.strayByte offset b)) ↔ ¬ WellShaped s
  /-- It is the byte that is to blame. -/
  strayByte : ∀ offset b, answer = .error (.strayByte offset b) ↔
    ¬ WellShaped s ∧ Blamed s offset b
  loneSymbol : ∀ n, answer = .error (.loneSymbol n) ↔
    WellShaped s ∧ s.length % 4 = 1 ∧ n = s.length
  unfilledGroup : answer = .error .unfilledGroup ↔
    WellShaped s ∧ (s.length % 4 = 2 ∨ s.length % 4 = 3)
  /-- Each pad byte leaves two bits of the last symbol to no byte. -/
  spareBits : ∀ offset b, answer = .error (.spareBits offset b) ↔
    ∃ front pads, Shape s front pads ∧ s.length % 4 = 0 ∧ offset = s.length - 1 - pads ∧
      front.getLast? = some b ∧
      (pads = 2 ∧ symbols.idxOf b % 16 ≠ 0 ∨ pads = 1 ∧ symbols.idxOf b % 4 ≠ 0)

theorem diagnosis_decodeBytes (s : List UInt8) : Diagnosis s (decodeBytes s) where
  shapeless := by
    constructor
    · rintro ⟨offset, b, h⟩
      rcases decodeBytes_eq_error_iff.mp h with ⟨shapeless, -⟩ | ⟨front, pads, -, fault⟩
      · exact shapeless
      · simp [ShapeFault] at fault
    · intro shapeless
      obtain ⟨offset, b, blamed⟩ := exists_blamed shapeless
      exact ⟨offset, b, decodeBytes_of_blamed shapeless blamed⟩
  strayByte offset b := by
    rw [decodeBytes_eq_error_iff]
    simp [ShapeFault]
  loneSymbol n := by
    rw [decodeBytes_eq_error_iff]
    simp [ShapeFault, WellShaped]
  unfilledGroup := by
    rw [decodeBytes_eq_error_iff]
    simp [ShapeFault, WellShaped]
  spareBits offset b := by
    rw [decodeBytes_eq_error_iff]
    constructor
    · rintro (⟨-, _, _, -, h⟩ | ⟨front, pads, shape, ⟨-, h⟩ | ⟨-, h⟩ | ⟨full, c, hc, bits, h⟩⟩)
      · cases h
      · cases h
      · cases h
      · obtain ⟨rfl, rfl⟩ := Fault.spareBits.inj h
        exact ⟨front, pads, shape, full, rfl, hc, bits⟩
    · rintro ⟨front, pads, shape, full, rfl, hb, bits⟩
      exact .inr ⟨front, pads, shape, .inr (.inr ⟨full, b, hb, bits, rfl⟩)⟩

/-- **The exact diagnosis of a text.** -/
theorem decode_diagnosis (text : String) :
    Diagnosis (Utf8.encodeChars (withoutBlanks text)) (decode text) := by
  rw [decode, significant_eq]
  exact diagnosis_decodeBytes _

/-- The first byte that is no symbol stands at 1. -/
example : decode "a~bc~" = .error (.strayByte 4 126) := by rfl

end Base64
end PasswordSeal
