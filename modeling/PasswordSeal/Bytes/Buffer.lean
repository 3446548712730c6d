/-
# Writing over a buffer

A buffer is written over again and again, and what it held before must not be seen in what is
made of it.

* `Bytes.xorInto` writes an exclusive or.  Neither the two operands nor the buffer need be long
  enough: bytes are written from the front, and the first position that one of the three does
  not have stops the write.  What stood behind it stays (`xorInto_eq`).  Where all three are of
  one length, nothing of the buffer is left (`xorInto_toList`).
* `Bytes.overwrite` and `Bytes.fillFrom` write some bytes to the front and one byte behind them,
  and between them leave nothing of the buffer either (`toList_fillFrom_overwrite`).
-/
import PasswordSeal.Bytes.Basic

namespace PasswordSeal
namespace Bytes

/-! ## 1. Exclusive or -/

/-- A buffer after a write, and whether every byte asked for was written. -/
structure Written where
  buffer : List UInt8
  complete : Bool
  deriving DecidableEq, Repr

/-- Writes the exclusive or of the first `count` bytes of `a` and `b` over the front of a
buffer. -/
def xorInto : (count : Nat) → (a b buffer : List UInt8) → Written
  | 0, _, _, buffer => ⟨buffer, true⟩
  | n + 1, x :: a, y :: b, _ :: buffer =>
    let rest := xorInto n a b buffer
    { rest with buffer := (x ^^^ y) :: rest.buffer }
  | _ + 1, _, _, buffer => ⟨buffer, false⟩

/-- How many bytes a write of `count` bytes comes to: each needs its place in all three. -/
def reach (count : Nat) (a b buffer : List UInt8) : Nat :=
  min count (min a.length (min b.length buffer.length))

theorem lt_reach_iff {n i : Nat} {a b buffer : List UInt8} :
    i < reach n a b buffer ↔ i < n ∧ i < a.length ∧ i < b.length ∧ i < buffer.length := by
  simp only [reach, Nat.lt_min]

theorem reach_cons (n : Nat) (x y z : UInt8) (a b buffer : List UInt8) :
    reach (n + 1) (x :: a) (y :: b) (z :: buffer) = reach n a b buffer + 1 := by
  simp only [reach, List.length_cons, Nat.add_min_add_right]

/-- **What a write leaves.**  As far as it reaches, the exclusive or; behind that, the buffer as it
was. -/
theorem xorInto_eq (n : Nat) (a b buffer : List UInt8) :
    xorInto n a b buffer =
      ⟨List.zipWith (· ^^^ ·) (a.take (reach n a b buffer)) (b.take (reach n a b buffer)) ++
        buffer.drop (reach n a b buffer), decide (reach n a b buffer = n)⟩ := by
  induction n generalizing a b buffer with
  | zero => simp [xorInto, reach]
  | succ n ih =>
    -- where one of the three ends, nothing is written
    cases a with
    | nil => simp [xorInto, reach]
    | cons x a =>
      cases b with
      | nil => simp [xorInto, reach]
      | cons y b =>
        cases buffer with
        | nil => simp [xorInto, reach]
        | cons z buffer =>
          rw [xorInto, ih, reach_cons]
          simp

/-- A write never changes the length of the buffer. -/
@[simp] theorem length_xorInto (n : Nat) (a b buffer : List UInt8) :
    (xorInto n a b buffer).buffer.length = buffer.length := by
  rw [xorInto_eq, List.length_append, List.length_zipWith, List.length_take, List.length_take,
    List.length_drop, reach]
  omega

/-- Operands and a buffer that are long enough: all bytes are written. -/
theorem xorInto_of_le {n : Nat} {a b buffer : List UInt8} (ha : n ≤ a.length)
    (hb : n ≤ b.length) (hbuffer : n ≤ buffer.length) :
    xorInto n a b buffer =
      ⟨List.zipWith (· ^^^ ·) (a.take n) (b.take n) ++ buffer.drop n, true⟩ := by
  have whole : reach n a b buffer = n := by
    unfold reach
    omega
  rw [xorInto_eq, whole, decide_eq_true rfl]

variable {n : Nat}

/-- Three strings of one length: all of the buffer is written over. -/
theorem xorInto_toList (a b buffer : Bytes n) :
    xorInto n a.toList b.toList buffer.toList = ⟨(a ^^^ b).toList, true⟩ := by
  have ha : a.toList.length = n := a.length_toList
  have hb : b.toList.length = n := b.length_toList
  have hbuffer : buffer.toList.length = n := buffer.length_toList
  rw [xorInto_of_le (Nat.le_of_eq ha.symm) (Nat.le_of_eq hb.symm) (Nat.le_of_eq hbuffer.symm),
    List.take_of_length_le (Nat.le_of_eq ha), List.take_of_length_le (Nat.le_of_eq hb),
    List.drop_of_length_le (Nat.le_of_eq hbuffer), List.append_nil, toList_xor]

/-! ## 2. Two parts -/

/-- Writes some bytes over the front of a buffer. -/
def overwrite (buffer : Bytes n) (l : List UInt8) : Bytes n :=
  Vector.ofFn fun i => l[i.val]?.getD buffer[i.val]

/-- Writes one byte over every place of a buffer from `k` on. -/
def fillFrom (buffer : Bytes n) (k : Nat) (x : UInt8) : Bytes n :=
  Vector.ofFn fun i => if i.val < k then buffer[i.val] else x

/-- The buffer does not matter when the two parts meet. -/
theorem toList_fillFrom_overwrite (buffer : Bytes n) {l : List UInt8} (h : l.length ≤ n)
    (x : UInt8) :
    (fillFrom (overwrite buffer l) l.length x).toList =
      l ++ List.replicate (n - l.length) x := by
  refine List.ext_getElem ?_ ?_
  · simp only [Vector.length_toList, List.length_append, List.length_replicate]
    omega
  · intro i h1 _
    rcases Nat.lt_or_ge i l.length with hi | hi
    · simp [fillFrom, overwrite, hi, List.getElem_append_left hi]
    · simp [fillFrom, Nat.not_lt.mpr hi, List.getElem_append_right hi]

end Bytes
end PasswordSeal
