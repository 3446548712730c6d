/-
# Key derivation as a textbook states it

A textbook makes a key of as many pieces as it needs, each of twenty bytes, and cuts the last one
off.  A piece is a sum of hashes: the first is that of the salt with the number of the piece, and
each one after it is the hash of the one before.

`Pbkdf2.derive` keeps a sum and the last hash in a loop and takes the password in only once.
`toList_derive` says that it makes the textbook's key of 32 bytes, for any number of iterations
from one on.

`deriveKeyInto_eq_textbook` says what that means for the buffer that a key is derived into: after
a success it holds the key, whatever it held before, and after a failure what it held before.
-/
import PasswordSeal.MessageKey
import PasswordSeal.Proofs.Hmac.Textbook

namespace PasswordSeal
namespace Pbkdf2

namespace Textbook

/-- A number in four bytes, the highest first. -/
def numberBytes (i : Nat) : List UInt8 :=
  [UInt8.ofNat (i / 256 ^ 3), UInt8.ofNat (i / 256 ^ 2), UInt8.ofNat (i / 256), UInt8.ofNat i]

/-- Hash `j` for piece `i`, counted from one; number zero is what the first hash is made of. -/
def link (password salt : List UInt8) (i : Nat) : (j : Nat) → List UInt8
  | 0 => salt ++ numberBytes i
  | j + 1 => Hmac.Textbook.mac password (link password salt i j)

/-- Piece `i`: the sum of the first `c` hashes for it. -/
def piece (password salt : List UInt8) (i : Nat) : (c : Nat) → List UInt8
  | 0 => List.replicate 20 0
  | c + 1 =>
    List.zipWith (· ^^^ ·) (piece password salt i c) (link password salt i (c + 1))

/-- The key of 32 bytes: the first piece, and twelve bytes of the second. -/
def key (password salt : List UInt8) (c : Nat) : List UInt8 :=
  piece password salt 1 c ++ (piece password salt 2 c).take 12

end Textbook

/-! ## 1. The loop -/

/-- Zero bytes are where a sum begins. -/
theorem replicate_zero_xor {n : Nat} (b : Bytes n) : Vector.replicate n 0 ^^^ b = b := by
  refine Vector.ext fun i hi => ?_
  rw [Bytes.getElem_xor, Vector.getElem_replicate, UInt8.zero_xor]

variable (password salt : List UInt8)

/-- The loop goes on from any hash and the sum up to it. -/
theorem toList_combine {u sum : Bytes 20} {i j : Nat}
    (hu : u.toList = Textbook.link password salt i j)
    (hsum : sum.toList = Textbook.piece password salt i j) (n : Nat) :
    (combine (Hmac.Keyed.ofKey password) n u sum).toList =
      Textbook.piece password salt i (j + n) := by
  induction n generalizing u sum j with
  | zero => exact hsum
  | succ n ih =>
    have next : ((Hmac.Keyed.ofKey password).mac u.toList).toList =
        Textbook.link password salt i (j + 1) := by
      rw [Hmac.toList_mac_ofKey, hu, Textbook.link]
    rw [combine, Nat.add_succ, ← Nat.succ_add]
    refine ih next ?_
    rw [Bytes.toList_xor, hsum, next, Textbook.piece]

/-- **A piece is the textbook's.** -/
theorem toList_piece {i : UInt32} {k : Nat}
    (number : (Bytes.ofWord32 i).toList = Textbook.numberBytes k) (n : Nat) :
    (piece (Hmac.Keyed.ofKey password) salt (n + 1) i).toList =
      Textbook.piece password salt k (n + 1) := by
  let first := (Hmac.Keyed.ofKey password).mac (salt ++ (Bytes.ofWord32 i).toList)
  have hfirst : first.toList = Textbook.link password salt k 1 := by
    rw [Hmac.toList_mac_ofKey, number, Textbook.link, Textbook.link]
  have hsum : first.toList = Textbook.piece password salt k 1 := by
    rw [Textbook.piece, Textbook.piece, ← hfirst, ← Vector.toList_replicate, ← Bytes.toList_xor,
      replicate_zero_xor]
  have sum := toList_combine password salt hfirst hsum n
  rw [Nat.add_comm 1 n] at sum
  exact sum

/-- **The key is the textbook's.** -/
theorem toList_derive (n : Nat) :
    (derive password salt (n + 1)).toList = Textbook.key password salt (n + 1) := by
  have first := toList_piece password salt (i := 1) (k := 1) rfl n
  have second := toList_piece password salt (i := 2) (k := 2) rfl n
  let k := Hmac.Keyed.ofKey password
  calc (derive password salt (n + 1)).toList
      = ((piece k salt (n + 1) 1).toList ++ (piece k salt (n + 1) 2).toList).take 32 := by
        rw [derive, deriveFrom, ← Vector.toList_append]
        exact Vector.toList_take
    _ = (piece k salt (n + 1) 1).toList ++ (piece k salt (n + 1) 2).toList.take 12 := by
        rw [List.take_append, Vector.length_toList, List.take_of_length_le]
        rw [Vector.length_toList]
        decide
    _ = Textbook.key password salt (n + 1) := by rw [first, second, Textbook.key]

end Pbkdf2

/-- **A key is derived as the textbook says, and nothing else comes into the buffer.**  Without
an iteration there is no key and the buffer stays as it was.  The key of a message is derived
alike, with the whole identifier as the salt. -/
theorem deriveKeyInto_eq_textbook (password salt : List UInt8) (buffer : Key) (c : Credentials)
    (n : Nat) :
    let noIteration := Failure.keyDerivation "PBKDF2 iterations must be ≥1"
    deriveKeyInto buffer password salt 0 = (.error noIteration, buffer) ∧
      (∃ key : Key, key.toList = Pbkdf2.Textbook.key password salt (n + 1) ∧
        deriveKeyInto buffer password salt (n + 1) = (.ok (), key)) ∧
      (messageKey c 0).outcome = .error noIteration ∧
      ∃ key : Key, key.toList = Pbkdf2.Textbook.key (Utf8.encode c.password)
          (Utf8.encode c.identifier) (n + 1) ∧
        (messageKey c (n + 1)).outcome = .ok key := by
  refine ⟨rfl, ⟨_, Pbkdf2.toList_derive password salt n, rfl⟩, rfl, ?_⟩
  exact ⟨_, Pbkdf2.toList_derive _ _ n, rfl⟩

end PasswordSeal
