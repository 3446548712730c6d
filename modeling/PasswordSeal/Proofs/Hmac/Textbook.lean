/-
# The keyed hash as a textbook states it

A textbook fills the key up with zero bytes to a block, or hashes it first when it is longer than
a block.  Then it hashes twice: the message behind the key combined with one byte, and the hash
of that behind the key combined with another.  `Hmac.Keyed` takes each of the two blocks in once
and keeps the words that they leave behind.

`toList_mac_ofKey` says that this gives the textbook's hashes, for keys and messages of any
length.  `keyBlock_eq_iff`: a key is known to the hash by the block that it is filled up to, and
by nothing else.
-/
import PasswordSeal.Hmac
import PasswordSeal.Proofs.Sha1.Agreement

namespace PasswordSeal
namespace Hmac

namespace Textbook

/-- The block that a key is filled up to.  A key that is longer is hashed first. -/
def paddedKey (key : List UInt8) : List UInt8 :=
  if 64 < key.length then Sha1.Textbook.hash key ++ List.replicate 44 0
  else key ++ List.replicate (64 - key.length) 0

/-- The keyed hash of a message. -/
def mac (key message : List UInt8) : List UInt8 :=
  let inner := Sha1.Textbook.hash ((paddedKey key).map (· ^^^ 0x36) ++ message)
  Sha1.Textbook.hash ((paddedKey key).map (· ^^^ 0x5C) ++ inner)

end Textbook

/-! ## 1. The block of a key -/

theorem length_shorten_le (key : List UInt8) : (shorten key).length ≤ 64 := by
  unfold shorten
  split
  · assumption
  · rw [Vector.length_toList]
    decide

theorem getElem_keyBlock (key : List UInt8) {i : Nat} (h : i < 64) :
    (keyBlock key)[i] = (shorten key).getD i 0 :=
  Vector.getElem_ofFn h

/-- What a key is shortened to and filled up to is its block. -/
theorem toList_keyBlock_eq_append (key : List UInt8) :
    (keyBlock key).toList = shorten key ++ List.replicate (64 - (shorten key).length) 0 := by
  have short := length_shorten_le key
  refine List.ext_getElem ?_ fun i hi _ => ?_
  · rw [Vector.length_toList, List.length_append, List.length_replicate]
    omega
  · rw [Vector.length_toList] at hi
    rw [Vector.getElem_toList, getElem_keyBlock key hi, List.getD_eq_getElem?_getD]
    rcases Nat.lt_or_ge i (shorten key).length with h | h
    · rw [List.getElem_append_left h, List.getElem?_eq_getElem h, Option.getD_some]
    · rw [List.getElem_append_right h, List.getElem_replicate, List.getElem?_eq_none h,
        Option.getD_none]

/-- **The block of a key is the textbook's.** -/
theorem toList_keyBlock (key : List UInt8) : (keyBlock key).toList = Textbook.paddedKey key := by
  rw [toList_keyBlock_eq_append, shorten, Textbook.paddedKey]
  rcases Nat.lt_or_ge 64 key.length with long | short
  · rw [if_neg (Nat.not_le.mpr long), if_pos long, Vector.length_toList, Sha1.toList_hash]
  · rw [if_pos short, if_neg (Nat.not_lt.mpr short)]

/-- **A key is known by the block that it is filled up to.** -/
theorem keyBlock_eq_iff {key key' : List UInt8} :
    keyBlock key = keyBlock key' ↔ Textbook.paddedKey key = Textbook.paddedKey key' := by
  rw [← toList_keyBlock, ← toList_keyBlock, Vector.toList_inj]

theorem ofKey_eq_of_paddedKey_eq {key key' : List UInt8}
    (h : Textbook.paddedKey key = Textbook.paddedKey key') :
    Keyed.ofKey key = Keyed.ofKey key' := by
  simp only [Keyed.ofKey, innerBlock, outerBlock, keyBlock_eq_iff.mpr h]

/-- Zero bytes that fit into the block change nothing. -/
theorem Textbook.paddedKey_append_zeros {key : List UInt8} {n : Nat} (h : key.length + n ≤ 64) :
    paddedKey (key ++ List.replicate n 0) = paddedKey key := by
  have fits : (key ++ List.replicate n 0).length = key.length + n := by
    rw [List.length_append, List.length_replicate]
  have rest : n + (64 - (key.length + n)) = 64 - key.length := by omega
  rw [paddedKey, paddedKey, fits, if_neg (Nat.not_lt.mpr h), if_neg (by omega), List.append_assoc,
    List.replicate_append_replicate, rest]

/-- The hash of a key that is too long is a key that is not. -/
theorem Textbook.paddedKey_hash {key : List UInt8} (long : 64 < key.length) :
    paddedKey (Sha1.Textbook.hash key) = paddedKey key := by
  rw [paddedKey, paddedKey, if_pos long, Sha1.Textbook.length_hash]
  exact if_neg (by decide)

/-! ## 2. The hash -/

theorem toList_xor_replicate {n : Nat} (b : Bytes n) (x : UInt8) :
    (b ^^^ Vector.replicate n x).toList = b.toList.map (· ^^^ x) := by
  refine List.ext_getElem ?_ fun i hi _ => ?_
  · rw [Vector.length_toList, List.length_map, Vector.length_toList]
  · rw [Vector.length_toList] at hi
    rw [Vector.getElem_toList, List.getElem_map, Vector.getElem_toList, Bytes.getElem_xor,
      Vector.getElem_replicate]

/-- **A key that was taken in gives the textbook's hashes.** -/
theorem toList_mac_ofKey (key message : List UInt8) :
    ((Keyed.ofKey key).mac message).toList = Textbook.mac key message := by
  rw [mac_ofKey, Sha1.toList_hash, Sha1.toList_hash, innerBlock, outerBlock, toList_xor_replicate,
    toList_xor_replicate, toList_keyBlock, Textbook.mac]

end Hmac
end PasswordSeal
