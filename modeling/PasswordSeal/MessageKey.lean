/-
# The key and the initial block of a message

Both are computed, and neither is stored with the message, so whoever knows the identifier, the
password and the count of iterations can unseal it.  The whole identifier is the salt of the key,
and its first sixteen bytes are the block that the chain of a message starts behind.  They are
taken as they are, so a character may be cut, and all messages under one identifier start behind
one block.
-/
import PasswordSeal.Logged
import PasswordSeal.Pbkdf2

namespace PasswordSeal

/-- What a message is sealed with. -/
structure Credentials where
  identifier : String
  password : String
  deriving DecidableEq, Repr

/-- The block that the chains of all messages under an identifier start behind. -/
def initialBlock (identifier : String) : Except Failure Block :=
  let bytes := Utf8.encode identifier
  match Bytes.front? 16 bytes with
  | some block => .ok block
  | none => .error (.shortIdentifier bytes.length)

/-- The key that a password and a salt give.  There has to be an iteration, and the password has
to be taken in. -/
def deriveKey (password salt : List UInt8) (iterations : Nat) : Except Failure Key :=
  if iterations = 0 then .error (.keyDerivation "PBKDF2 iterations must be ≥1")
  else (Pbkdf2.tryDerive password salt iterations).mapError fun fault =>
    .keyDerivation s!"PBKDF2 failed: {fault.message}"

/-- Nothing is too short or too long for a password or a salt: one iteration is enough. -/
theorem deriveKey_of_ne_zero {iterations : Nat} (h : iterations ≠ 0)
    (password salt : List UInt8) :
    deriveKey password salt iterations = .ok (Pbkdf2.derive password salt iterations) := by
  rw [deriveKey, if_neg h, Pbkdf2.tryDerive_eq]
  rfl

/-- Derives a key over the one that a buffer holds, and gives the new content of the buffer.  A
failure leaves it as it was. -/
def deriveKeyInto (buffer : Key) (password salt : List UInt8) (iterations : Nat) :
    Except Failure Unit × Key :=
  match deriveKey password salt iterations with
  | .ok key => (.ok (), key)
  | .error e => (.error e, buffer)

/-- The key of the messages under some credentials. -/
def messageKey (c : Credentials) (iterations : Nat) : Logged Key := do
  let salt := Utf8.encode c.identifier
  let key ← .ofExcept (deriveKey (Utf8.encode c.password) salt iterations)
  .emit (.keyDerived salt.length iterations)
  return key

end PasswordSeal
