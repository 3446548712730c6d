/-
# PBKDF2

A key of 32 bytes is made from a password and a salt with the keyed hash.  Each piece of twenty
bytes is the exclusive or of a sequence: first the hash of the salt with the number of the
piece, then the hash of the one before, as often as asked for.  Two pieces are enough, and the
second is cut off.
-/
import PasswordSeal.Hmac

namespace PasswordSeal
namespace Pbkdf2

/-- Combines `u` with the `n` hashes that follow it, into `sum`. -/
def combine (k : Hmac.Keyed) : (n : Nat) → (u sum : Bytes 20) → Bytes 20
  | 0, _, sum => sum
  | n + 1, u, sum =>
    let next := k.mac u.toList
    combine k n next (sum ^^^ next)

/-- Piece number `i`, from `iterations` hashes, of which there is at least one. -/
def piece (k : Hmac.Keyed) (salt : List UInt8) (iterations : Nat) (i : UInt32) : Bytes 20 :=
  let first := k.mac (salt ++ (Bytes.ofWord32 i).toList)
  combine k (iterations - 1) first first

/-- The key of 32 bytes from a password that was taken in. -/
def deriveFrom (k : Hmac.Keyed) (salt : List UInt8) (iterations : Nat) : Bytes 32 :=
  (piece k salt iterations 1 ++ piece k salt iterations 2).take 32

/-- The key of 32 bytes that a password and a salt give. -/
def derive (password salt : List UInt8) (iterations : Nat) : Bytes 32 :=
  deriveFrom (.ofKey password) salt iterations

/-- The same, unless the password cannot be taken in. -/
def tryDerive (password salt : List UInt8) (iterations : Nat) :
    Except Hmac.KeyFault (Bytes 32) := do
  let k ← Hmac.takeIn password
  return deriveFrom k salt iterations

/-- **Every password can be taken in.** -/
@[simp] theorem tryDerive_eq (password salt : List UInt8) (iterations : Nat) :
    tryDerive password salt iterations = .ok (derive password salt iterations) := rfl

end Pbkdf2
end PasswordSeal
