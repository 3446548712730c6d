/-
# What is logged

Deriving a key, sealing and unsealing leave events behind.  An event holds lengths, counts and
the kind of a failure, and nothing that is secret.
-/
import PasswordSeal.Failure

namespace PasswordSeal

/-- Something that happened during an operation. -/
inductive Event where
  | keyDerived (saltLength iterations : Nat)
  | sealed (plaintextLength ciphertextLength : Nat)
  | sealingFailed (kind : Failure.Kind)
  | unsealed (ciphertextLength plaintextLength : Nat)
  | unsealingFailed (kind : Failure.Kind)
  deriving DecidableEq, Repr

namespace Event

/-- How much attention an event asks for. -/
inductive Level where
  | trace
  | debug
  deriving DecidableEq, Repr

/-- The name of a level in the log. -/
def Level.name : Level → String
  | .trace => "TRACE"
  | .debug => "DEBUG"

/-- What a field of an event holds. -/
inductive Value where
  | number (n : Nat)
  | text (s : String)
  deriving DecidableEq, Repr

/-- A derived key is a detail; the rest is of interest by itself. -/
def level : Event → Level
  | keyDerived .. => .trace
  | _ => .debug

/-- The event in words. -/
def message : Event → String
  | keyDerived .. => "message key derived"
  | sealed .. => "message encrypted"
  | sealingFailed _ => "message encryption failed"
  | unsealed .. => "message decrypted"
  | unsealingFailed _ => "message decryption failed"

/-- The named fields of an event. -/
def fields : Event → List (String × Value)
  | keyDerived salt iterations => [("salt_len", .number salt), ("iterations", .number iterations)]
  | sealed plaintext ciphertext =>
    [("plaintext_len", .number plaintext), ("ciphertext_len", .number ciphertext)]
  | sealingFailed kind => [("kind", .text kind.name)]
  | unsealed ciphertext plaintext =>
    [("ciphertext_len", .number ciphertext), ("plaintext_len", .number plaintext)]
  | unsealingFailed kind => [("kind", .text kind.name)]

end Event
end PasswordSeal
