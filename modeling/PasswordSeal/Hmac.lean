/-
# HMAC with SHA-1

A keyed hash: the message is hashed behind one block made from the key, and the result behind
another.  A key that is longer than a block is replaced by its hash, and a shorter one is
filled up with zero bytes, so two keys that give one `Hmac.keyBlock` are one key.

A keyed hash may refuse a key for its length, so taking one in has a fault of its own
(`Hmac.takeIn`).  It does not occur here, as every key can be made a block.

`mac_ofKey`: a key that was taken in beforehand gives the hashes behind its blocks.
-/
import PasswordSeal.Sha1

namespace PasswordSeal
namespace Hmac

/-- A key of at most 64 bytes that stands for the given one. -/
def shorten (key : List UInt8) : List UInt8 :=
  if key.length ≤ 64 then key else (Sha1.hash key).toList

/-- The key as one block: shortened, then filled up with zero bytes. -/
def keyBlock (key : List UInt8) : Bytes 64 :=
  let short := shorten key
  Vector.ofFn fun i => short.getD i 0

/-- The block behind which a message is hashed. -/
def innerBlock (key : List UInt8) : Bytes 64 := keyBlock key ^^^ Vector.replicate 64 0x36

/-- The block behind which the first hash is hashed again. -/
def outerBlock (key : List UInt8) : Bytes 64 := keyBlock key ^^^ Vector.replicate 64 0x5C

/-- A key that has been taken in: the words that its two blocks leave behind. -/
structure Keyed where
  inner : Sha1.State
  outer : Sha1.State
  deriving DecidableEq, Repr

/-- What a key leaves behind. -/
def Keyed.ofKey (key : List UInt8) : Keyed where
  inner := Sha1.compress Sha1.State.initial (innerBlock key)
  outer := Sha1.compress Sha1.State.initial (outerBlock key)

/-- Why a keyed hash does not take a key in. -/
inductive KeyFault where
  | invalidLength
  deriving DecidableEq, Repr

/-- The fault in words. -/
def KeyFault.message : KeyFault → String
  | .invalidLength => "Invalid Length"

/-- Takes a key in.  All lengths will do. -/
def takeIn (key : List UInt8) : Except KeyFault Keyed := .ok (.ofKey key)

/-- The keyed hash of a message. -/
def Keyed.mac (k : Keyed) (message : List UInt8) : Bytes 20 :=
  Sha1.digestFrom k.outer 64 (Sha1.digestFrom k.inner 64 message).toList

/-- Taking the key in first changes nothing: two hashes, each behind its block. -/
theorem mac_ofKey (key message : List UInt8) :
    (Keyed.ofKey key).mac message =
      Sha1.hash ((outerBlock key).toList ++
        (Sha1.hash ((innerBlock key).toList ++ message)).toList) := by
  simp only [Keyed.mac, Keyed.ofKey, Sha1.hash, ← Sha1.digestFrom_compress, Nat.zero_add]

end Hmac
end PasswordSeal
