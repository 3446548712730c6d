/-
# What can go wrong

Every operation fails in one of five ways.  A `Failure` holds what the caller may want to know,
its `kind` is all that is logged, and its `message` never shows a password, a key or a payload.
-/
import PasswordSeal.Base64.Basic
import PasswordSeal.Cbc.Basic

namespace PasswordSeal

/-- Why an operation failed. -/
inductive Failure where
  /-- The identifier has fewer bytes than a block; `length` is their number. -/
  | shortIdentifier (length : Nat)
  /-- No key could be derived. -/
  | keyDerivation (reason : String)
  /-- The sealed text is no Base64. -/
  | encoding (fault : Base64.Fault)
  /-- The ciphertext cannot be decrypted, which a wrong password or identifier shows as too. -/
  | cipher (fault : Cbc.Fault)
  /-- The ciphertext was decrypted, but not to text. -/
  | notText (payload : List UInt8) (fault : Utf8.Fault)
  deriving DecidableEq, Repr

namespace Failure

/-- The five ways, without their details. -/
inductive Kind where
  | shortIdentifier
  | keyDerivation
  | encoding
  | cipher
  | notText
  deriving DecidableEq, Repr

/-- The name under which a kind is logged and reported. -/
def Kind.name : Kind → String
  | .shortIdentifier => "InvalidIdentifier"
  | .keyDerivation => "KeyDerivation"
  | .encoding => "Encoding"
  | .cipher => "Cipher"
  | .notText => "EncodingMismatch"

/-- The kind of a failure. -/
def kind : Failure → Kind
  | shortIdentifier _ => .shortIdentifier
  | keyDerivation _ => .keyDerivation
  | encoding _ => .encoding
  | cipher _ => .cipher
  | notText .. => .notText

/-- The words of the fault that lies below a failure, when there is one. -/
def cause? : Failure → Option String
  | shortIdentifier _ => none
  | keyDerivation _ => none
  | encoding fault => some fault.message
  | cipher fault => some fault.message
  | notText _ fault => some fault.message

/-- The failure in words. -/
def message : Failure → String
  | shortIdentifier length =>
    s!"invalid identifier: {length} bytes, at least {blockSize} required"
  | keyDerivation reason => s!"key derivation failed: {reason}"
  | encoding fault => s!"malformed ciphertext encoding: {fault.message}"
  | cipher fault => s!"cipher error: {fault.message}"
  | notText _ fault => s!"decrypted payload is not valid UTF-8: {fault.message}"

end Failure

/-- The text that a payload writes. -/
def readText (payload : List UInt8) : Except Failure String :=
  (Utf8.decode payload).mapError (Failure.notText payload)

end PasswordSeal
