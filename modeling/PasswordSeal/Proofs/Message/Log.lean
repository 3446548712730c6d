/-
# What messages leave in the log

An operation logs on its way, and it may fail after it has logged that all went well: a payload is
announced before anyone has looked whether it is text.  Here the log of every call is stated from
its outcome, line by line, with the levels, the words and the fields as they are written
(`sealLog`, `unsealLog`).

* `log_sealText`: sealing logs one line when it fails, and otherwise the key and the message.
* `log_unsealText`: unsealing logs as far as it came, and then its failure.
* `log_messageKey`: a key that is derived by itself is logged when there is an iteration.

Stages that are no `Logged` operations log nothing, so the lines are all there are.  Nothing in them
but the kind of a failure and the lengths of the identifier, the ciphertext and the payload depends
on what was sealed.
-/
import PasswordSeal.Proofs.Message.Stages

namespace PasswordSeal

/-! ## 1. Lines -/

/-- A line of the log. -/
structure LogLine where
  level : String
  message : String
  fields : List (String × Event.Value)
  deriving DecidableEq, Repr

/-- The line that shows an event. -/
def Event.line (e : Event) : LogLine := ⟨e.level.name, e.message, e.fields⟩

/-- The lines that an operation logs. -/
def Logged.log {α : Type} (x : Logged α) : List LogLine := x.events.map Event.line

/-- A key was derived with `n` iterations. -/
def keyLine (c : Credentials) (n : Nat) : LogLine :=
  ⟨"TRACE", "message key derived",
    [("salt_len", .number (Utf8.encode c.identifier).length), ("iterations", .number n)]⟩

/-- An operation has failed. -/
def failureLine (message kind : String) : LogLine := ⟨"DEBUG", message, [("kind", .text kind)]⟩

/-- What sealing a text logs, with `n` iterations. -/
def sealLog (n : Nat) (c : Credentials) (plaintext : String) :
    (outcome : Except Failure String) → List LogLine
  | .error e => [failureLine "message encryption failed" e.kind.name]
  | .ok _ =>
    let length := (Utf8.encode plaintext).length
    [keyLine c n, ⟨"DEBUG", "message encrypted",
      [("plaintext_len", .number length), ("ciphertext_len", .number (16 * (length / 16 + 1)))]⟩]

/-- What unsealing some bytes logs, with `n` iterations, when they are decrypted to a payload. -/
def unsealLog (n : Nat) (c : Credentials) (ciphertext payload : List UInt8) :
    (outcome : Except Failure String) → List LogLine
  | .error (.shortIdentifier _) => [failure "InvalidIdentifier"]
  | .error (.encoding _) => [failure "Encoding"]
  | .error (.keyDerivation _) => [failure "KeyDerivation"]
  | .error (.cipher _) => [keyLine c n, failure "Cipher"]
  | .error (.notText _ _) => [keyLine c n, decrypted, failure "EncodingMismatch"]
  | .ok _ => [keyLine c n, decrypted]
where
  failure (kind : String) : LogLine := failureLine "message decryption failed" kind
  decrypted : LogLine := ⟨"DEBUG", "message decrypted",
    [("ciphertext_len", .number ciphertext.length), ("plaintext_len", .number payload.length)]⟩

/-- The bytes that a text writes; none when it writes none. -/
def ciphertextOf (text : String) : List UInt8 := (Base64.decode text).toOption.getD []

/-- What the bytes of a text are decrypted to, their padding taken off; nothing when they are not
decrypted. -/
def Settings.payloadOf (s : Settings) (c : Credentials) (text : String) : List UInt8 :=
  match initialBlock c.identifier with
  | .ok iv => (Cbc.decrypt (s.key c) iv (ciphertextOf text)).toOption.getD []
  | .error _ => []

/-! ## 2. Sealing -/

namespace Settings

variable {s : Settings} {c : Credentials}

theorem sealText_of_initialBlock_error {e : Failure} (h : initialBlock c.identifier = .error e)
    (plaintext : String) : s.sealText c plaintext = ⟨.error e, [.sealingFailed e.kind]⟩ := by
  rw [sealText, h]
  rfl

theorem sealText_of_initialBlock_ok {iv : Block} (h : initialBlock c.identifier = .ok iv)
    (plaintext : String) :
    let payload := Utf8.encode plaintext
    s.sealText c plaintext =
      ⟨.ok (s.layout.encode (Cbc.encrypt (s.key c) iv payload)),
        [.keyDerived (Utf8.encode c.identifier).length s.iterations,
          .sealed payload.length (16 * (payload.length / 16 + 1))]⟩ := by
  intro payload
  have length : (Cbc.encrypt (s.key c) iv payload).length = 16 * (payload.length / 16 + 1) :=
    Cbc.length_encrypt (s.key c) iv payload
  rw [sealText, h, ← length]
  simp only [messageKey_eq]
  rfl

theorem log_sealText (plaintext : String) :
    (s.sealText c plaintext).log =
      sealLog s.iterations c plaintext (s.sealText c plaintext).outcome := by
  cases h : initialBlock c.identifier with
  | error e =>
    rw [sealText_of_initialBlock_error h]
    rfl
  | ok iv =>
    rw [sealText_of_initialBlock_ok h]
    rfl

/-! ## 3. Unsealing -/

theorem unsealText_of_initialBlock_error {e : Failure} (h : initialBlock c.identifier = .error e)
    (text : String) : s.unsealText c text = ⟨.error e, [.unsealingFailed e.kind]⟩ := by
  rw [unsealText, h]
  rfl

section

variable {iv : Block} (hiv : initialBlock c.identifier = .ok iv) {text : String}
include hiv

theorem unsealText_of_decode_error {fault : Base64.Fault} (h : Base64.decode text = .error fault) :
    s.unsealText c text = ⟨.error (.encoding fault), [.unsealingFailed .encoding]⟩ := by
  rw [unsealText, hiv, h]
  rfl

variable {ciphertext : List UInt8} (hdecode : Base64.decode text = .ok ciphertext)
include hdecode

/-- Once there is a key, it is logged before anything else. -/
theorem unsealText_of_decode_ok :
    let rest : Logged String := do
      let payload ← .ofExcept ((Cbc.decrypt (s.key c) iv ciphertext).mapError .cipher)
      .emit (.unsealed ciphertext.length payload.length)
      .ofExcept (readText payload)
    s.unsealText c text = .reporting .unsealingFailed ⟨rest.outcome,
      .keyDerived (Utf8.encode c.identifier).length s.iterations :: rest.events⟩ := by
  rw [unsealText, hiv, hdecode]
  simp only [messageKey_eq]
  rfl

theorem unsealText_of_decrypt_error {fault : Cbc.Fault}
    (h : Cbc.decrypt (s.key c) iv ciphertext = .error fault) :
    s.unsealText c text = ⟨.error (.cipher fault),
      [.keyDerived (Utf8.encode c.identifier).length s.iterations, .unsealingFailed .cipher]⟩ := by
  rw [unsealText_of_decode_ok hiv hdecode, h]
  rfl

/-- A payload is announced before it is read. -/
theorem unsealText_of_decrypt_ok {payload : List UInt8}
    (h : Cbc.decrypt (s.key c) iv ciphertext = .ok payload) :
    s.unsealText c text = .reporting .unsealingFailed ⟨readText payload,
      [.keyDerived (Utf8.encode c.identifier).length s.iterations,
        .unsealed ciphertext.length payload.length]⟩ := by
  rw [unsealText_of_decode_ok hiv hdecode, h]
  rfl

end

theorem log_unsealText (text : String) :
    (s.unsealText c text).log =
      unsealLog s.iterations c (ciphertextOf text) (s.payloadOf c text)
        (s.unsealText c text).outcome := by
  cases hiv : initialBlock c.identifier with
  | error e =>
    obtain ⟨-, rfl⟩ := initialBlock_eq_error_iff.mp hiv
    rw [unsealText_of_initialBlock_error hiv]
    rfl
  | ok iv =>
    cases hdecode : Base64.decode text with
    | error fault =>
      rw [unsealText_of_decode_error hiv hdecode]
      rfl
    | ok ciphertext =>
      have bytes : ciphertextOf text = ciphertext := by rw [ciphertextOf, hdecode]; rfl
      cases hdecrypt : Cbc.decrypt (s.key c) iv ciphertext with
      | error fault =>
        rw [unsealText_of_decrypt_error hiv hdecode hdecrypt, bytes]
        rfl
      | ok payload =>
        have opened : s.payloadOf c text = payload := by
          rw [payloadOf, hiv, bytes]
          simp only [hdecrypt]
          rfl
        rw [unsealText_of_decrypt_ok hiv hdecode hdecrypt, bytes, opened, readText]
        cases Utf8.decode payload with
        | error fault => rfl
        | ok plaintext => rfl

end Settings

/-! ## 4. A key by itself -/

theorem log_messageKey (c : Credentials) (n : Nat) :
    (messageKey c n).log = if 1 ≤ n then [keyLine c n] else [] := by
  split
  · rw [messageKey_of_ne_zero c (Nat.ne_of_gt ‹_›)]
    rfl
  · obtain rfl : n = 0 := Nat.lt_one_iff.mp (Nat.not_le.mp ‹_›)
    rfl

end PasswordSeal
