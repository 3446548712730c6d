/-
# Exclusive or over a buffer of any length

`Bytes.xorInto` is asked for a number of bytes, which for `xorBlocks` are those of a block, and
nobody has looked whether its operands and its buffer have so many.  Whatever their lengths,
`xorInto_frame` says place by place what the buffer holds afterwards: the exclusive or as far as
all three reach, and its own bytes behind that, also behind the last byte that was asked for.
**The write breaks off just when one of the three is too short,** and what it has written until
then stays.

A write that does not break off can be undone with the same operand.
-/
import PasswordSeal.Block

namespace PasswordSeal
namespace Bytes

variable {n : Nat} {a b buffer : List UInt8}

/-! ## 1. One place of the buffer -/

theorem complete_xorInto_eq_false_iff :
    (xorInto n a b buffer).complete = false ↔ reach n a b buffer < n := by
  have most : reach n a b buffer ≤ n := Nat.min_le_left _ _
  rw [xorInto_eq, decide_eq_false_iff_not]
  omega

/-- The places that a write reaches are there in both operands. -/
theorem length_zipWith_take_reach :
    (List.zipWith (· ^^^ ·) (a.take (reach n a b buffer)) (b.take (reach n a b buffer))).length =
      reach n a b buffer := by
  rw [List.length_zipWith, List.length_take, List.length_take, reach]
  omega

/-- A place that is reached holds the exclusive or of what the operands hold there. -/
theorem getElem?_xorInto_of_lt {i : Nat} (h : i < reach n a b buffer) :
    ∃ x y, a[i]? = some x ∧ b[i]? = some y ∧
      (xorInto n a b buffer).buffer[i]? = some (x ^^^ y) := by
  obtain ⟨-, ha, hb, -⟩ := lt_reach_iff.mp h
  obtain ⟨x, hx⟩ : ∃ x, a[i]? = some x := ⟨_, List.getElem?_eq_getElem ha⟩
  obtain ⟨y, hy⟩ : ∃ y, b[i]? = some y := ⟨_, List.getElem?_eq_getElem hb⟩
  refine ⟨x, y, hx, hy, ?_⟩
  rw [xorInto_eq, List.getElem?_append_left (by rwa [length_zipWith_take_reach]),
    List.getElem?_zipWith, List.getElem?_take_of_lt h, List.getElem?_take_of_lt h, hx, hy]

/-- A place that is not reached is left alone. -/
theorem getElem?_xorInto_of_le {i : Nat} (h : reach n a b buffer ≤ i) :
    (xorInto n a b buffer).buffer[i]? = buffer[i]? := by
  rw [xorInto_eq, List.getElem?_append_right (by rwa [length_zipWith_take_reach]),
    length_zipWith_take_reach, List.getElem?_drop, Nat.add_sub_cancel' h]

/-! ## 2. Twice -/

theorem zipWith_xor_cancel {l m : List UInt8} (h : l.length = m.length) :
    List.zipWith (· ^^^ ·) (List.zipWith (· ^^^ ·) l m) m = l := by
  induction l generalizing m with
  | nil => rfl
  | cons x l ih =>
    obtain ⟨y, m, rfl⟩ := List.exists_cons_of_length_eq_add_one h.symm
    have back : x ^^^ y ^^^ y = x := by rw [UInt8.xor_assoc, UInt8.xor_self, UInt8.xor_zero]
    rw [List.zipWith_cons_cons, List.zipWith_cons_cons, ih (Nat.succ.inj h), back]

/-- Writing once more with the same operand gives the other one back. -/
theorem xorInto_xorInto (ha : n ≤ a.length) (hb : n ≤ b.length) (hbuffer : n ≤ buffer.length)
    {other : List UInt8} (hother : n ≤ other.length) :
    xorInto n (xorInto n a b buffer).buffer b other = ⟨a.take n ++ other.drop n, true⟩ := by
  have width : (List.zipWith (· ^^^ ·) (a.take n) (b.take n)).length = n := by
    rw [List.length_zipWith, List.length_take, List.length_take]
    omega
  have same : (a.take n).length = (b.take n).length := by
    rw [List.length_take, List.length_take]
    omega
  rw [xorInto_of_le (by rwa [length_xorInto]) hb hother, xorInto_of_le ha hb hbuffer,
    List.take_left' width, zipWith_xor_cancel same]

/-- **What a write does, and what it leaves alone,** for operands and a buffer of any lengths. -/
theorem xorInto_frame (n : Nat) (a b buffer : List UInt8) :
    ((xorInto n a b buffer).complete = false ↔
      min n (min a.length (min b.length buffer.length)) < n) ∧
    (xorInto n a b buffer).buffer.length = buffer.length ∧
    (∀ i < min n (min a.length (min b.length buffer.length)), ∃ x y, a[i]? = some x ∧
      b[i]? = some y ∧ (xorInto n a b buffer).buffer[i]? = some (x ^^^ y)) ∧
    (∀ i, min n (min a.length (min b.length buffer.length)) ≤ i →
      (xorInto n a b buffer).buffer[i]? = buffer[i]?) ∧
    (n ≤ a.length → n ≤ b.length → n ≤ buffer.length → ∀ other : List UInt8, n ≤ other.length →
      xorInto n (xorInto n a b buffer).buffer b other = ⟨a.take n ++ other.drop n, true⟩) :=
  ⟨complete_xorInto_eq_false_iff, length_xorInto n a b buffer, fun _ => getElem?_xorInto_of_lt,
    fun _ => getElem?_xorInto_of_le, fun ha hb hbuffer _ => xorInto_xorInto ha hb hbuffer⟩

/-- A write of a block that breaks off after three bytes, and one that does not, with the write
that undoes it. -/
theorem xorInto_frame_sixteen :
    let short := xorBlocks [1, 2, 3] (List.replicate 20 0xFF) (List.replicate 18 7)
    let once := xorBlocks (List.replicate 17 0xA5) (List.replicate 16 0x0F) (List.replicate 18 7)
    (short.complete = false ∧ short.buffer[2]? = some (3 ^^^ 0xFF) ∧ short.buffer[3]? = some 7) ∧
      xorBlocks once.buffer (List.replicate 16 0x0F) (List.replicate 20 0) =
        ⟨List.replicate 16 0xA5 ++ List.replicate 4 0, true⟩ := by
  intro short once
  obtain ⟨breaks, -, written, kept, -⟩ :=
    xorInto_frame 16 [1, 2, 3] (List.replicate 20 0xFF) (List.replicate 18 7)
  obtain ⟨-, -, -, -, back⟩ :=
    xorInto_frame 16 (List.replicate 17 0xA5) (List.replicate 16 0x0F) (List.replicate 18 7)
  obtain ⟨x, y, hx, hy, hshort⟩ := written 2 (by decide)
  obtain rfl := Option.some.inj hx
  obtain rfl := Option.some.inj hy
  exact ⟨⟨breaks.mpr (by decide), hshort, kept 3 (by decide)⟩,
    back (by decide) (by decide) (by decide) (List.replicate 20 0) (by decide)⟩

end Bytes
end PasswordSeal
