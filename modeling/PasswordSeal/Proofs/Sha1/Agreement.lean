/-
# Both hashes are one function

`Sha1.hash` appends bytes to a message, cuts it into blocks of 64 bytes and takes the blocks in
one after another.  `Textbook.hash` does the same with bits, and finds everything in them by
position.  `toList_hash` says that they agree on every message.

* **Bits.**  Words and bytes that are written high part first are read back from the bits by
  position (`toBitVec_getElem_words`, `numberAt_eight`), so both sides see the same words.
* **Padding.**  A one bit and seven zero bits are the byte `0x80`, so padding by bits is padding
  by bytes (`messageBits_append_padding`).
* **Rounds.**  `State.toVariables` carries a round on machine words to the round on strings of bits
  (`toVariables_round`), so it carries the eighty rounds of a block (`toVariables_compress`) and the
  blocks of a message (`hashValue_join`).
-/
import Mathlib.Algebra.Group.Nat.Defs
import PasswordSeal.Proofs.Sha1.Textbook
import PasswordSeal.Sha1

namespace PasswordSeal
namespace Sha1

open Textbook

/-! ## 1. Numbers in bits -/

@[simp] theorem length_bitsOf (w n : Nat) : (bitsOf w n).length = w := by
  induction w with
  | zero => rfl
  | succ w ih => rw [bitsOf, List.length_cons, ih]

/-- Bits that are read behind others write the next digits. -/
theorem foldl_bitsOf (w n acc : Nat) :
    (bitsOf w n).foldl (fun n b => 2 * n + b.toNat) acc = acc * 2 ^ w + n % 2 ^ w := by
  induction w generalizing acc with
  | zero => simp [bitsOf, Nat.mod_one]
  | succ w ih =>
    have digit : n % 2 ^ (w + 1) = n % 2 ^ w + 2 ^ w * (n.testBit w).toNat := by
      rw [Nat.mod_pow_succ, Nat.toNat_testBit]
    rw [bitsOf, List.foldl_cons, ih, digit, Nat.pow_succ]
    grind

/-- Only the lowest bits are written. -/
theorem bitsOf_mod (w n : Nat) : bitsOf w (n % 2 ^ w) = bitsOf w n := by
  suffices h : ∀ v, v ≤ w → bitsOf v (n % 2 ^ w) = bitsOf v n from h w (Nat.le_refl w)
  intro v hv
  induction v with
  | zero => rfl
  | succ v ih =>
    have bit : (n % 2 ^ w).testBit v = n.testBit v := by
      rw [Nat.testBit_mod_two_pow, decide_eq_true (Nat.lt_of_succ_le hv), Bool.true_and]
    rw [bitsOf, bitsOf, bit, ih (Nat.le_of_succ_le hv)]

/-- A number is written high part first. -/
theorem bitsOf_add (v w n : Nat) : bitsOf (v + w) n = bitsOf v (n / 2 ^ w) ++ bitsOf w n := by
  induction v with
  | zero => rw [Nat.zero_add, bitsOf, List.nil_append]
  | succ v ih =>
    rw [Nat.succ_add, bitsOf, bitsOf, ih, Nat.testBit_div_two_pow, List.cons_append,
      Nat.add_comm v w]

/-! ## 2. The bits of bytes -/

@[simp] theorem messageBits_nil : messageBits [] = [] := rfl

@[simp] theorem messageBits_cons (b : UInt8) (l : List UInt8) :
    messageBits (b :: l) = bitsOf 8 b.toNat ++ messageBits l := rfl

theorem messageBits_append (l m : List UInt8) :
    messageBits (l ++ m) = messageBits l ++ messageBits m := List.flatMap_append

@[simp] theorem length_messageBits (l : List UInt8) :
    (messageBits l).length = 8 * l.length := by
  induction l with
  | nil => rfl
  | cons b l ih =>
    rw [messageBits_cons, List.length_append, length_bitsOf, ih, List.length_cons]
    omega

/-- Whole bytes are eight bits each. -/
theorem take_drop_messageBits (k : Nat) (l : List UInt8) :
    (messageBits l).take (8 * k) = messageBits (l.take k) ∧
      (messageBits l).drop (8 * k) = messageBits (l.drop k) := by
  rcases Nat.le_total k l.length with h | h
  · have split : messageBits l = messageBits (l.take k) ++ messageBits (l.drop k) := by
      rw [← messageBits_append, List.take_append_drop]
    have cut : (messageBits (l.take k)).length = 8 * k := by
      rw [length_messageBits, List.length_take, Nat.min_eq_left h]
    rw [split]
    exact ⟨List.take_left' cut, List.drop_left' cut⟩
  · have past : (messageBits l).length ≤ 8 * k := by
      rw [length_messageBits]
      omega
    rw [List.take_of_length_le past, List.take_of_length_le h, List.drop_eq_nil_of_le past,
      List.drop_eq_nil_of_le h]
    exact ⟨rfl, rfl⟩

/-- Some bytes write the number of which they are the digits. -/
theorem valueOf_messageBits (l : List UInt8) :
    valueOf (messageBits l) = l.foldl (fun n b => 256 * n + b.toNat) 0 := by
  suffices h : ∀ acc, (messageBits l).foldl (fun n b => 2 * n + b.toNat) acc =
      l.foldl (fun n b => 256 * n + b.toNat) acc from h 0
  intro acc
  induction l generalizing acc with
  | nil => rfl
  | cons b l ih =>
    rw [messageBits_cons, List.foldl_append, foldl_bitsOf, ih, List.foldl_cons,
      Nat.mod_eq_of_lt b.toNat_lt]
    exact congrArg (fun n => l.foldl _ (n + b.toNat)) (Nat.mul_comm acc 256)

/-- Numbers of whole bytes are read from the bytes at their position. -/
theorem numberAt_messageBits (k : Nat) (l : List UInt8) (i : Nat) :
    numberAt (8 * k) (messageBits l) i =
      ((l.drop (k * i)).take k).foldl (fun n b => 256 * n + b.toNat) 0 := by
  rw [numberAt, Nat.mul_assoc, (take_drop_messageBits _ _).2, (take_drop_messageBits _ _).1,
    valueOf_messageBits]

/-! ## 3. Words in bytes -/

/-- A byte that is cut out of a word has the bits that stand there. -/
theorem bitsOf_toUInt8_shiftRight (w k : UInt32) :
    bitsOf 8 (w >>> k).toUInt8.toNat = bitsOf 8 (w.toNat / 2 ^ (k.toNat % 32)) := by
  rw [UInt32.toNat_toUInt8, bitsOf_mod, UInt32.toNat_shiftRight, Nat.shiftRight_eq_div_pow]

/-- The four bytes of a word have its bits. -/
theorem messageBits_ofWord32 (w : UInt32) :
    messageBits (Bytes.ofWord32 w).toList = bitsOf 32 w.toNat := by
  have low : bitsOf 8 w.toUInt8.toNat = bitsOf 8 w.toNat := by
    rw [UInt32.toNat_toUInt8, bitsOf_mod]
  calc messageBits (Bytes.ofWord32 w).toList
      = bitsOf 8 (w >>> 24).toUInt8.toNat ++ (bitsOf 8 (w >>> 16).toUInt8.toNat ++
          (bitsOf 8 (w >>> 8).toUInt8.toNat ++ (bitsOf 8 w.toUInt8.toNat ++ []))) := rfl
    _ = bitsOf 8 (w.toNat / 2 ^ 24) ++ (bitsOf 8 (w.toNat / 2 ^ 16) ++
          (bitsOf 8 (w.toNat / 2 ^ 8) ++ bitsOf 8 w.toNat)) := by
        rw [bitsOf_toUInt8_shiftRight, bitsOf_toUInt8_shiftRight, bitsOf_toUInt8_shiftRight, low,
          List.append_nil]
        rfl
    _ = bitsOf (8 + (8 + (8 + 8))) w.toNat := by
        rw [bitsOf_add, bitsOf_add, bitsOf_add]

/-- The eight bytes of a long word have its bits. -/
theorem messageBits_ofWord64 (w : UInt64) :
    messageBits (Bytes.ofWord64 w).toList = bitsOf 64 w.toNat := by
  have high : bitsOf 32 (w >>> 32).toUInt32.toNat = bitsOf 32 (w.toNat / 2 ^ 32) := by
    rw [UInt64.toNat_toUInt32, bitsOf_mod, UInt64.toNat_shiftRight, Nat.shiftRight_eq_div_pow]
    rfl
  have low : bitsOf 32 w.toUInt32.toNat = bitsOf 32 w.toNat := by
    rw [UInt64.toNat_toUInt32, bitsOf_mod]
  rw [Bytes.ofWord64, Vector.toList_append, messageBits_append, messageBits_ofWord32,
    messageBits_ofWord32, high, low, ← bitsOf_add]

/-- The word of four bytes is the number of which they are the digits. -/
theorem toNat_word32 (a b c d : UInt8) :
    (Bytes.word32 a b c d).toNat =
      [a, b, c, d].foldl (fun n b => 256 * n + b.toNat) 0 := by
  have ha := a.toNat_lt
  have hb := b.toNat_lt
  have hc := c.toNat_lt
  have hd := d.toNat_lt
  have places : (Bytes.word32 a b c d).toNat =
      a.toNat <<< 24 % 2 ^ 32 ||| b.toNat <<< 16 % 2 ^ 32 ||| c.toNat <<< 8 % 2 ^ 32 |||
        d.toNat := by
    simp only [Bytes.word32, UInt32.toNat_or, UInt32.toNat_shiftLeft, UInt8.toNat_toUInt32]
    rfl
  have high : a.toNat <<< 24 % 2 ^ 32 = a.toNat <<< 24 := by omega
  have second : b.toNat <<< 16 % 2 ^ 32 = b.toNat <<< 16 := by omega
  have third : c.toNat <<< 8 % 2 ^ 32 = c.toNat <<< 8 := by omega
  -- Below each shifted byte there is room for the bytes after it, so combining them adds.
  rw [places, high, second, third, Nat.or_assoc, Nat.or_assoc,
    ← Nat.shiftLeft_add_eq_or_of_lt hd, ← Nat.shiftLeft_add_eq_or_of_lt (i := 16) (by omega),
    ← Nat.shiftLeft_add_eq_or_of_lt (i := 24) (by omega)]
  simp only [List.foldl_cons, List.foldl_nil]
  omega

/-! ## 4. Padding -/

/-- Zero bytes are zero bits. -/
theorem messageBits_replicate_zero (k : Nat) :
    messageBits (List.replicate k 0) = List.replicate (8 * k) false := by
  induction k with
  | zero => rfl
  | succ k ih =>
    have byte : bitsOf 8 (0 : UInt8).toNat = List.replicate 8 false := rfl
    rw [List.replicate_succ, messageBits_cons, ih, byte, List.replicate_append_replicate,
      Nat.mul_succ, Nat.add_comm]

/-- **Padding by bytes is padding by bits.** -/
theorem messageBits_append_padding (m : List UInt8) :
    messageBits (m ++ padding m.length) = pad (messageBits m) := by
  have one : bitsOf 8 (0x80 : UInt8).toNat = [true] ++ List.replicate 7 false := rfl
  have zeros : zeroCount (8 * m.length) = 7 + 8 * ((119 - m.length % 64) % 64) := by
    unfold zeroCount
    omega
  have length : bitsOf 64 (UInt64.ofNat (8 * m.length)).toNat = bitsOf 64 (8 * m.length) := by
    rw [UInt64.toNat_ofNat', bitsOf_mod]
  rw [padding, messageBits_append, List.cons_append, messageBits_cons, messageBits_append,
    messageBits_replicate_zero, messageBits_ofWord64, length, one, pad, length_messageBits, zeros,
    ← List.replicate_append_replicate]
  simp only [List.append_assoc]

/-! ## 5. The schedule -/

/-- The words of a block are read from its bits. -/
theorem toBitVec_getElem_words (block : Bytes 64) {t : Nat} (h : t < 16) :
    (words block)[t].toBitVec = BitVec.ofNat 32 (numberAt 32 (messageBits block.toList) t) := by
  have size : block.toList.length = 64 := block.length_toList
  have bytes : (block.toList.drop (4 * t)).take 4 =
      [block[4 * t], block[4 * t + 1], block[4 * t + 2], block[4 * t + 3]] := by
    rw [List.drop_eq_getElem_cons (by omega), List.drop_eq_getElem_cons (by omega),
      List.drop_eq_getElem_cons (by omega), List.drop_eq_getElem_cons (by omega)]
    rfl
  have number := numberAt_messageBits 4 block.toList t
  rw [bytes, ← toNat_word32] at number
  rw [number, words, Vector.getElem_ofFn]
  exact ((BitVec.ofNat_toNat 32 _).trans (BitVec.setWidth_eq _)).symm

theorem toBitVec_rotateLeft (x k : UInt32) (h : 0 < k.toNat ∧ k.toNat < 32) :
    (rotateLeft x k).toBitVec = x.toBitVec.rotateLeft k.toNat := by
  have back : (32 - k).toNat = 32 - k.toNat :=
    UInt32.toNat_sub_of_le 32 k (UInt32.le_iff_toNat_le.mpr (Nat.le_of_lt h.2))
  have left : x.toBitVec <<< (k.toBitVec % 32) = x.toBitVec <<< (k.toNat % 32) := rfl
  have right : x.toBitVec >>> ((32 - k).toBitVec % 32) =
      x.toBitVec >>> ((32 - k).toNat % 32) := rfl
  rw [rotateLeft, UInt32.toBitVec_or, UInt32.toBitVec_shiftLeft, UInt32.toBitVec_shiftRight, left,
    right, back, BitVec.rotateLeft_def, Nat.mod_eq_of_lt h.2, Nat.mod_eq_of_lt (by omega)]

/-- The first sixteen words are those of the block. -/
theorem schedule_of_le (m : Nat → Word) {t : Nat} (h : t ≤ 16) :
    Textbook.schedule m t = (List.range t).map m := by
  induction t with
  | zero => rfl
  | succ t ih =>
    rw [Textbook.schedule, ih (Nat.le_of_succ_le h), List.range_succ, List.map_append]
    simp only [if_pos (Nat.lt_of_succ_le h)]
    rfl

/-- Words that follow are found where the earlier ones were put. -/
theorem getD_map_toBitVec {n i : Nat} (ws : Vector UInt32 n) (h : i < n) :
    (ws.toList.map UInt32.toBitVec).getD i 0 = ws[i].toBitVec := by
  have here : (ws.toList.map UInt32.toBitVec)[i]? = some ws[i].toBitVec := by
    rw [List.getElem?_map, Vector.getElem?_toList, Vector.getElem?_eq_getElem h, Option.map_some]
  rw [List.getD_eq_getElem?_getD, here, Option.getD_some]

/-- **The schedules of a block are the same.** -/
theorem schedule_eq (block : Bytes 64) {m : Nat → Word}
    (first : ∀ t (_ : t < 16), (words block)[t].toBitVec = m t) (n : Nat) :
    Textbook.schedule m (16 + n) = (extend block n).toList.map UInt32.toBitVec := by
  induction n with
  | zero =>
    calc Textbook.schedule m 16
        = (List.range 16).map m := schedule_of_le m (Nat.le_refl 16)
      _ = (words block).toList.map UInt32.toBitVec := by
        refine List.ext_getElem (by simp) fun t ht _ => ?_
        rw [List.length_map, List.length_range] at ht
        rw [List.getElem_map, List.getElem_map, List.getElem_range, Vector.getElem_toList,
          first t ht]
  | succ n ih =>
    have earlier {i : Nat} (h : i < 16 + n) :
        (Textbook.schedule m (16 + n)).getD i 0 = (extend block n)[i].toBitVec := by
      rw [ih, getD_map_toBitVec _ h]
    have next : Textbook.schedule m (16 + n + 1) = Textbook.schedule m (16 + n) ++
        [((extend block n)[n + 13].toBitVec ^^^ (extend block n)[n + 8].toBitVec ^^^
          (extend block n)[n + 2].toBitVec ^^^ (extend block n)[n].toBitVec).rotateLeft 1] := by
      rw [Textbook.schedule, if_neg (by omega), earlier (by omega), earlier (by omega),
        earlier (by omega), earlier (by omega)]
      simp only [show 16 + n - 3 = n + 13 by omega, show 16 + n - 8 = n + 8 by omega,
        show 16 + n - 14 = n + 2 by omega, show 16 + n - 16 = n by omega]
    calc Textbook.schedule m (16 + n + 1)
        = (extend block n).toList.map UInt32.toBitVec ++ _ := by rw [next, ih]
      _ = ((extend block n).push (rotateLeft _ 1)).toList.map UInt32.toBitVec := by
        rw [Vector.toList_push, List.map_append, List.map_singleton,
          toBitVec_rotateLeft _ 1 (by decide)]
        rfl

/-! ## 6. Rounds -/

/-- The words of a state as strings of bits. -/
def State.toVariables (s : State) : Variables :=
  ⟨s.a.toBitVec, s.b.toBitVec, s.c.toBitVec, s.d.toBitVec, s.e.toBitVec⟩

theorem toBitVec_choose (x y z : UInt32) :
    (x &&& y ||| ~~~x &&& z).toBitVec = choose x.toBitVec y.toBitVec z.toBitVec := by
  refine BitVec.eq_of_getLsbD_eq fun i hi => ?_
  simp only [choose, UInt32.toBitVec_or, UInt32.toBitVec_and, UInt32.toBitVec_not,
    BitVec.getLsbD_or, BitVec.getLsbD_and, BitVec.getLsbD_xor, BitVec.getLsbD_not]
  cases x.toBitVec.getLsbD i <;> simp

theorem toBitVec_majority (x y z : UInt32) :
    (x &&& y ||| x &&& z ||| y &&& z).toBitVec =
      majority x.toBitVec y.toBitVec z.toBitVec := by
  refine BitVec.eq_of_getLsbD_eq fun i hi => ?_
  simp only [majority, UInt32.toBitVec_or, UInt32.toBitVec_and, BitVec.getLsbD_or,
    BitVec.getLsbD_and, BitVec.getLsbD_xor]
  cases x.toBitVec.getLsbD i <;> cases y.toBitVec.getLsbD i <;> simp

/-- In each round the same function and constant are used: each for twenty rounds. -/
theorem toBitVec_mix {t : Nat} (h : t < 80) (x y z : UInt32) :
    (mix t x y z).toBitVec = roundFunction t x.toBitVec y.toBitVec z.toBitVec ∧
      (Sha1.roundConstant t).toBitVec = constant t := by
  rcases (by omega : t / 20 = 0 ∨ t / 20 = 1 ∨ t / 20 = 2 ∨ t / 20 = 3) with q | q | q | q
  · rw [mix, roundFunction, Sha1.roundConstant, constant, q, if_pos (by omega), if_pos (by omega)]
    exact ⟨toBitVec_choose x y z, rfl⟩
  · rw [mix, roundFunction, Sha1.roundConstant, constant, q, if_neg (by omega), if_pos (by omega),
      if_neg (by omega), if_pos (by omega)]
    exact ⟨rfl, rfl⟩
  · rw [mix, roundFunction, Sha1.roundConstant, constant, q, if_neg (by omega), if_neg (by omega),
      if_pos (by omega), if_neg (by omega), if_neg (by omega), if_pos (by omega)]
    exact ⟨toBitVec_majority x y z, rfl⟩
  · rw [mix, roundFunction, Sha1.roundConstant, constant, q, if_neg (by omega), if_neg (by omega),
      if_neg (by omega), if_neg (by omega), if_neg (by omega), if_neg (by omega)]
    exact ⟨rfl, rfl⟩

/-- **A round on machine words is the round on strings of bits.** -/
theorem toVariables_round {t : Nat} (h : t < 80) (w : UInt32) (s : State) :
    (round t w s).toVariables = step t w.toBitVec s.toVariables := by
  obtain ⟨function, constant⟩ := toBitVec_mix h s.b s.c s.d
  simp only [round, State.toVariables, step, UInt32.toBitVec_add, function, constant,
    toBitVec_rotateLeft s.a 5 (by decide), toBitVec_rotateLeft s.b 30 (by decide)]
  rfl

theorem variablesAfter_eq {w : List Word} {ws : Vector UInt32 80}
    (same : ∀ t (_ : t < 80), w.getD t 0 = ws[t].toBitVec) (s : State) {n : Nat} (h : n ≤ 80) :
    variablesAfter w s.toVariables n =
      (Fin.foldl n (fun s t => round t.val ws[t.val] s) s).toVariables := by
  induction n with
  | zero => rw [Fin.foldl_zero, variablesAfter]
  | succ n ih =>
    rw [variablesAfter, ih (Nat.le_of_succ_le h), same n h, Fin.foldl_succ_last]
    exact (toVariables_round h _ _).symm

/-- **The eighty rounds of a block change the words alike.** -/
theorem toVariables_compress (s : State) (block : Bytes 64) {m : Nat → Word}
    (first : ∀ t (_ : t < 16), (words block)[t].toBitVec = m t) :
    (compress s block).toVariables =
      let v := variablesAfter (Textbook.schedule m 80) s.toVariables 80
      ⟨v.a + s.a.toBitVec, v.b + s.b.toBitVec, v.c + s.c.toBitVec, v.d + s.d.toBitVec,
        v.e + s.e.toBitVec⟩ := by
  have same : ∀ t (h : t < 80), (Textbook.schedule m 80).getD t 0 =
      (Sha1.schedule block)[t].toBitVec := by
    intro t h
    rw [schedule_eq block first 64]
    exact getD_map_toBitVec _ h
  have sum (x y : UInt32) : (x + y).toBitVec = y.toBitVec + x.toBitVec :=
    UInt32.toBitVec_add.trans (BitVec.add_comm _ _)
  rw [variablesAfter_eq same s (Nat.le_refl 80)]
  simp only [compress, State.add, State.toVariables, sum]
  rfl

/-! ## 7. Messages -/

/-- Blocks of a message are found in its bits by position. -/
theorem take_drop_messageBits_join (blocks : List (Bytes 64)) {i : Nat} (h : i < blocks.length) :
    ((messageBits (Bytes.join blocks)).drop (512 * i)).take 512 =
      messageBits blocks[i].toList := by
  induction blocks generalizing i with
  | nil => cases h
  | cons b bs ih =>
    have bits : (messageBits b.toList).length = 512 := by
      rw [length_messageBits, Vector.length_toList]
    rw [Bytes.join_cons, messageBits_append]
    cases i with
    | zero => exact List.take_left' bits
    | succ i =>
      rw [Nat.mul_succ, Nat.add_comm, ← List.drop_drop, List.drop_left' bits]
      exact ih (Nat.lt_of_succ_lt_succ h)

/-- **The blocks of a message are taken in alike.** -/
theorem hashValue_join (blocks : List (Bytes 64)) {i : Nat} (h : i ≤ blocks.length) :
    hashValue (messageBits (Bytes.join blocks)) i =
      ((blocks.take i).foldl compress State.initial).toVariables := by
  induction i with
  | zero => rfl
  | succ i ih =>
    have first : ∀ t (_ : t < 16), (words blocks[i])[t].toBitVec =
        blockWord (messageBits (Bytes.join blocks)) i t := by
      intro t ht
      rw [toBitVec_getElem_words _ ht, blockWord, take_drop_messageBits_join blocks h]
    rw [hashValue, ih (Nat.le_of_succ_le h), List.take_succ_eq_append_getElem h, List.foldl_append,
      List.foldl_cons, List.foldl_nil, toVariables_compress _ _ first]
    rfl

/-- The words of a state are written as the textbook writes a hash. -/
theorem messageBits_toBytes (s : State) :
    messageBits s.toBytes.toList =
      [s.toVariables.a, s.toVariables.b, s.toVariables.c, s.toVariables.d,
        s.toVariables.e].flatMap fun x => bitsOf 32 x.toNat := by
  simp only [State.toBytes, Vector.toList_append, messageBits_append, messageBits_ofWord32,
    List.flatMap_cons, List.flatMap_nil, List.append_nil, List.append_assoc]
  rfl

/-- Single bytes are read back from their bits. -/
theorem numberAt_eight (l : List UInt8) {i : Nat} (h : i < l.length) :
    UInt8.ofNat (numberAt 8 (messageBits l) i) = l[i] := by
  have byte : (l.drop (1 * i)).take 1 = [l[i]] := by
    rw [Nat.one_mul, List.drop_eq_getElem_cons h]
    rfl
  rw [numberAt_messageBits 1 l i, byte]
  simp

theorem digest_messageBits (message : List UInt8) :
    digest (messageBits message) = messageBits (hash message).toList := by
  have whole := Bytes.join_chunks (n := 64) (message ++ padding message.length) (by
    rw [List.length_append]
    exact dvd_length_padding message.length)
  have bytes : hash message = ((Bytes.chunks 64 (message ++ padding message.length)).foldl
      compress State.initial).toBytes := by
    rw [hash, digestFrom, Nat.zero_add]
  generalize Bytes.chunks 64 (message ++ padding message.length) = blocks at whole bytes
  have padded : pad (messageBits message) = messageBits (Bytes.join blocks) := by
    rw [whole, messageBits_append_padding]
  have count : (messageBits (Bytes.join blocks)).length / 512 = blocks.length := by
    rw [length_messageBits, Bytes.length_join]
    omega
  rw [digest, padded, count, hashValue_join blocks (Nat.le_refl _), List.take_length, bytes,
    messageBits_toBytes]

/-- **Both hashes hash every message alike.** -/
theorem toList_hash (message : List UInt8) : (hash message).toList = Textbook.hash message := by
  refine List.ext_getElem ?_ fun i hi _ => ?_
  · rw [Vector.length_toList, Textbook.length_hash]
  · simp only [Textbook.hash, List.getElem_map, List.getElem_range, digest_messageBits]
    exact (numberAt_eight _ hi).symm

/-- The hash of the letters `abc`. -/
example : Textbook.hash [0x61, 0x62, 0x63] =
    [0xA9, 0x99, 0x3E, 0x36, 0x47, 0x06, 0x81, 0x6A, 0xBA, 0x3E, 0x25, 0x71, 0x78, 0x50, 0xC2,
      0x6C, 0x9C, 0xD0, 0xD8, 0x9D] := by
  decide +kernel

end Sha1
end PasswordSeal
