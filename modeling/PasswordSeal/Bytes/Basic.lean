/-
# Byte strings of known length

Blocks, keys and digests are byte strings whose length never varies, so the length is part of
the type: `Bytes n` is a vector of `n` bytes.  Text, plaintext and ciphertext have any length
and stay lists.

* `Bytes.xor` combines two strings of one length, byte by byte.
* `Bytes.chunks` cuts a list into strings of `n` bytes and leaves a `Bytes.remainder`;
  `Bytes.join` puts such strings end to end again.  With the remainder behind them they are the
  list (`join_chunks_append_remainder`), and cutting gives the strings back (`chunks_join`).
* `Bytes.ofWord32` and `Bytes.ofWord64` write machine words with the high byte first, and
  `Bytes.word32` reads one.
-/
namespace PasswordSeal

/-- A byte string of `n` bytes. -/
abbrev Bytes (n : Nat) := Vector UInt8 n

namespace Bytes

variable {n : Nat}

/-! ## 1. Single bytes -/

/-- The terms of an exclusive or may change places. -/
theorem byte_xor_left_comm (a b c : UInt8) : a ^^^ (b ^^^ c) = b ^^^ (a ^^^ c) := by
  rw [← UInt8.xor_assoc, UInt8.xor_comm a b, UInt8.xor_assoc]

/-- A byte that stands twice next to itself drops out. -/
theorem byte_xor_self_left (a b : UInt8) : a ^^^ (a ^^^ b) = b := by
  rw [← UInt8.xor_assoc, UInt8.xor_self, UInt8.zero_xor]

/-- What holds of each of the 256 bytes can be decided by going through them. -/
instance decidableForallByte {P : UInt8 → Prop} [DecidablePred P] : Decidable (∀ b, P b) :=
  decidable_of_iff (∀ i : Fin 256, P (UInt8.ofFin i))
    ⟨fun h b => by simpa using h b.toFin, fun h i => h (UInt8.ofFin i)⟩

/-! ## 2. Exclusive or of strings -/

/-- The bytewise exclusive or of two strings of one length. -/
def xor (a b : Bytes n) : Bytes n := Vector.zipWith (· ^^^ ·) a b

instance : XorOp (Bytes n) := ⟨xor⟩

@[simp] theorem getElem_xor (a b : Bytes n) (i : Nat) (h : i < n) :
    (a ^^^ b)[i] = a[i] ^^^ b[i] :=
  Vector.getElem_zipWith h

@[simp] theorem get_xor (a b : Bytes n) (i : Fin n) : (a ^^^ b).get i = a.get i ^^^ b.get i :=
  getElem_xor a b i.val i.isLt

theorem toList_xor (a b : Bytes n) :
    (a ^^^ b).toList = List.zipWith (· ^^^ ·) a.toList b.toList := Vector.toList_zipWith

theorem xor_assoc (a b c : Bytes n) : a ^^^ b ^^^ c = a ^^^ (b ^^^ c) := by
  refine Vector.ext fun i h => ?_
  simp only [getElem_xor, UInt8.xor_assoc]

/-- Combining with the same string twice changes nothing. -/
@[simp] theorem xor_xor_cancel_right (a b : Bytes n) : a ^^^ b ^^^ b = a := by
  refine Vector.ext fun i h => ?_
  rw [getElem_xor, getElem_xor, UInt8.xor_assoc, UInt8.xor_self, UInt8.xor_zero]

/-! ## 3. Cutting a list into strings -/

/-- The first `n` bytes of a list that has as many. -/
def front (n : Nat) (l : List UInt8) (h : n ≤ l.length) : Bytes n :=
  ⟨(l.take n).toArray, by simpa using Nat.min_eq_left h⟩

@[simp] theorem toList_front (n : Nat) (l : List UInt8) (h : n ≤ l.length) :
    (front n l h).toList = l.take n := rfl

/-- The first `n` bytes of a list, if it has as many. -/
def front? (n : Nat) (l : List UInt8) : Option (Bytes n) :=
  if h : n ≤ l.length then some (front n l h) else none

/-- The first bytes are what the list starts with. -/
theorem front?_eq_some_iff {l : List UInt8} {b : Bytes n} :
    front? n l = some b ↔ b.toList <+: l := by
  unfold front?
  constructor
  · intro h
    split at h
    · obtain rfl := Option.some.inj h
      exact List.take_prefix n l
    · cases h
  · intro h
    have hl : n ≤ l.length := b.length_toList ▸ h.length_le
    have same : b.toList = l.take n := by
      rw [List.prefix_iff_eq_take.mp h, b.length_toList]
    rw [dif_pos hl]
    exact congrArg some (Vector.toList_inj.mp same.symm)

theorem front?_eq_none_iff {l : List UInt8} : front? n l = none ↔ l.length < n := by
  simp [front?]

/-- The successive strings of `n` bytes.  Bytes at the end that do not fill a string are left
out, and there are no strings of no bytes. -/
def chunks (n : Nat) (l : List UInt8) : List (Bytes n) :=
  if h : 0 < n ∧ n ≤ l.length then front n l h.2 :: chunks n (l.drop n) else []
termination_by l.length
decreasing_by
  simp only [List.length_drop]
  omega

/-- The bytes at the end that do not fill a string. -/
def remainder (n : Nat) (l : List UInt8) : List UInt8 := l.drop (n * (l.length / n))

/-- The strings put end to end. -/
def join (blocks : List (Bytes n)) : List UInt8 := blocks.flatMap Vector.toList

@[simp] theorem join_nil : join ([] : List (Bytes n)) = [] := rfl

@[simp] theorem join_cons (b : Bytes n) (bs : List (Bytes n)) :
    join (b :: bs) = b.toList ++ join bs := rfl

@[simp] theorem join_append (as bs : List (Bytes n)) : join (as ++ bs) = join as ++ join bs :=
  List.flatMap_append

@[simp] theorem length_join (bs : List (Bytes n)) : (join bs).length = n * bs.length := by
  induction bs with
  | nil => simp
  | cons b bs ih => simp [ih, Nat.mul_add, Nat.add_comm]

/-- A byte of the strings is found by the number of its string and its place there. -/
theorem getElem?_join (bs : List (Bytes n)) (i : Nat) (r : Fin n) :
    (join bs)[n * i + r.val]? = bs[i]?.map (·.get r) := by
  induction bs generalizing i with
  | nil => rfl
  | cons b bs ih =>
    rw [join_cons]
    cases i with
    | zero =>
      have here : r.val < b.toList.length := by
        rw [b.length_toList]
        exact r.isLt
      rw [Nat.mul_zero, Nat.zero_add, List.getElem?_append_left here, List.getElem?_cons_zero,
        Option.map_some, List.getElem?_eq_getElem here, Vector.getElem_toList]
      rfl
    | succ i =>
      have behind : n * (i + 1) + r.val = b.toList.length + (n * i + r.val) := by
        rw [b.length_toList, Nat.mul_succ]
        omega
      rw [behind, List.getElem?_append_right (Nat.le_add_right ..), Nat.add_sub_cancel_left, ih,
        List.getElem?_cons_succ]

/-- The first strings are what the list of bytes starts with. -/
theorem take_join (bs : List (Bytes n)) (j : Nat) : (join bs).take (n * j) = join (bs.take j) := by
  induction bs generalizing j with
  | nil => rw [join_nil, List.take_nil, List.take_nil, join_nil]
  | cons b bs ih =>
    cases j with
    | zero => rfl
    | succ j =>
      have length : n * (j + 1) = b.toList.length + n * j := by
        rw [b.length_toList, Nat.mul_succ, Nat.add_comm]
      rw [join_cons, length, List.take_length_add_append, ih, List.take_succ_cons, join_cons]

/-- A string in front of a list is the first to be cut off. -/
theorem chunks_append (hn : 0 < n) (b : Bytes n) (l : List UInt8) :
    chunks n (b.toList ++ l) = b :: chunks n l := by
  rw [chunks, dif_pos ⟨hn, by simp⟩, List.drop_left' b.length_toList]
  congr 1
  refine Vector.toList_inj.mp ?_
  rw [toList_front, List.take_left' b.length_toList]

/-- A list too short for one string is left whole. -/
theorem chunks_of_lt {l : List UInt8} (h : l.length < n) : chunks n l = [] := by
  rw [chunks, dif_neg fun hl => Nat.not_le.mpr h hl.2]

/-- Strings in front of a list are the first to be cut off. -/
theorem chunks_join_append (hn : 0 < n) (bs : List (Bytes n)) (l : List UInt8) :
    chunks n (join bs ++ l) = bs ++ chunks n l := by
  induction bs with
  | nil => rfl
  | cons b bs ih => rw [join_cons, List.append_assoc, chunks_append hn, ih, List.cons_append]

/-- Cutting where the strings meet gives them back. -/
theorem chunks_join (hn : 0 < n) (bs : List (Bytes n)) : chunks n (join bs) = bs := by
  have empty : chunks n [] = [] := chunks_of_lt hn
  have h := chunks_join_append hn bs []
  rwa [empty, List.append_nil, List.append_nil] at h

/-- Strings put end to end are those strings only. -/
theorem join_inj (hn : 0 < n) {as bs : List (Bytes n)} : join as = join bs ↔ as = bs := by
  constructor
  · intro h
    rw [← chunks_join hn as, h, chunks_join hn]
  · rintro rfl
    rfl

@[simp] theorem length_remainder (l : List UInt8) :
    (remainder n l).length = l.length % n := by
  rw [remainder, List.length_drop, Nat.mod_def]

/-- The strings are the list up to the last byte that fills one. -/
theorem join_chunks_eq_take (l : List UInt8) :
    join (chunks n l) = l.take (n * (l.length / n)) := by
  induction l using chunks.induct n with
  | case1 l hl ih =>
    have count : l.length / n = (l.length - n) / n + 1 := by
      rw [← Nat.add_div_right _ hl.1, Nat.sub_add_cancel hl.2]
    rw [chunks, dif_pos hl, join_cons, toList_front, ih, List.length_drop, count, Nat.mul_add,
      Nat.mul_one, Nat.add_comm, List.take_add]
  | case2 l hl =>
    have none : n * (l.length / n) = 0 := by
      rcases Nat.eq_zero_or_pos n with rfl | hn
      · exact Nat.zero_mul _
      · rw [Nat.div_eq_of_lt (Nat.not_le.mp fun h => hl ⟨hn, h⟩), Nat.mul_zero]
    rw [chunks, dif_neg hl, none]
    rfl

/-- Nothing is lost but the remainder. -/
theorem join_chunks_append_remainder (l : List UInt8) :
    join (chunks n l) ++ remainder n l = l := by
  rw [join_chunks_eq_take, remainder, List.take_append_drop]

/-- Nothing is lost when the strings fill the list. -/
theorem join_chunks (l : List UInt8) (h : n ∣ l.length) : join (chunks n l) = l := by
  rw [join_chunks_eq_take, Nat.mul_div_cancel' h, List.take_length]

/-! ## 4. Machine words, high byte first -/

/-- The four bytes of a 32-bit word. -/
def ofWord32 (w : UInt32) : Bytes 4 :=
  #v[(w >>> 24).toUInt8, (w >>> 16).toUInt8, (w >>> 8).toUInt8, w.toUInt8]

/-- The 32-bit word of four bytes. -/
def word32 (a b c d : UInt8) : UInt32 :=
  a.toUInt32 <<< 24 ||| b.toUInt32 <<< 16 ||| c.toUInt32 <<< 8 ||| d.toUInt32

/-- The eight bytes of a 64-bit word. -/
def ofWord64 (w : UInt64) : Bytes 8 := ofWord32 (w >>> 32).toUInt32 ++ ofWord32 w.toUInt32

end Bytes

end PasswordSeal
