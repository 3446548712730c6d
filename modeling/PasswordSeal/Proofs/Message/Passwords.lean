/-
# Passwords that open each other's messages

A password comes into a key as the block that it is filled up to and in no other way
(`Hmac.keyBlock_eq_iff`).  Two passwords with one block are therefore one password to everything
that takes a password in: the same keys are derived from them, and messages are sealed and
unsealed alike, with the same failures and the same events (`messages_eq_of_paddedKey_eq`).

There are such passwords.

* **Zero bytes at the end of a password are not seen**, as long as it fits into a block.
* **A password that does not fit into a block is its hash.**
-/
import PasswordSeal.Proofs.Hmac.Textbook
import PasswordSeal.Proofs.Message.RoundTrip

namespace PasswordSeal

open Hmac.Textbook (paddedKey)

/-! ## 1. Keys -/

section Keys

variable {p q : List UInt8} (h : paddedKey p = paddedKey q)
include h

/-- The loops see no more of a password than what its blocks leave behind. -/
theorem Pbkdf2.derive_eq_of_paddedKey_eq (salt : List UInt8) (n : Nat) :
    derive p salt n = derive q salt n := by
  rw [derive, derive, Hmac.ofKey_eq_of_paddedKey_eq h]

theorem deriveKey_eq_of_paddedKey_eq (salt : List UInt8) (n : Nat) :
    deriveKey p salt n = deriveKey q salt n := by
  rw [deriveKey, deriveKey, Pbkdf2.tryDerive_eq, Pbkdf2.tryDerive_eq,
    Pbkdf2.derive_eq_of_paddedKey_eq h]

theorem deriveKeyInto_eq_of_paddedKey_eq (buffer : Key) (salt : List UInt8) (n : Nat) :
    deriveKeyInto buffer p salt n = deriveKeyInto buffer q salt n := by
  rw [deriveKeyInto, deriveKeyInto, deriveKey_eq_of_paddedKey_eq h]

end Keys

/-! ## 2. Messages -/

section Messages

variable {p q : String} (h : paddedKey (Utf8.encode p) = paddedKey (Utf8.encode q))
include h

/-- The key is derived alike, and logged alike. -/
theorem messageKey_eq_of_paddedKey_eq (identifier : String) (n : Nat) :
    messageKey ⟨identifier, p⟩ n = messageKey ⟨identifier, q⟩ n := by
  simp only [messageKey, deriveKey_eq_of_paddedKey_eq h]

variable (s : Settings) (identifier : String)

theorem Settings.sealText_eq_of_paddedKey_eq (plaintext : String) :
    s.sealText ⟨identifier, p⟩ plaintext = s.sealText ⟨identifier, q⟩ plaintext := by
  simp only [sealText, messageKey_eq_of_paddedKey_eq h]

theorem Settings.unsealText_eq_of_paddedKey_eq (text : String) :
    s.unsealText ⟨identifier, p⟩ text = s.unsealText ⟨identifier, q⟩ text := by
  simp only [unsealText, messageKey_eq_of_paddedKey_eq h]

end Messages

/-- What was sealed with the first password can be unsealed with the second. -/
def Opens (p q : String) : Prop :=
  ∀ (s : Settings) (identifier plaintext text : String),
    (s.sealText ⟨identifier, p⟩ plaintext).outcome = .ok text →
      (s.unsealText ⟨identifier, q⟩ text).outcome = .ok plaintext

theorem opens_of_paddedKey_eq {p q : String}
    (h : paddedKey (Utf8.encode p) = paddedKey (Utf8.encode q)) : Opens p q := by
  intro s identifier plaintext text sealed
  rw [← Settings.unsealText_eq_of_paddedKey_eq h]
  exact Settings.unsealText_of_sealText sealed

/-! ## 3. Zero bytes -/

/-- A text of zero characters. -/
def zeros (n : Nat) : String := String.ofList (List.replicate n '\x00')

theorem encodeChars_replicate_zero (n : Nat) :
    Utf8.encodeChars (List.replicate n '\x00') = List.replicate n 0 := by
  induction n with
  | zero => rfl
  | succ n ih =>
    rw [List.replicate_succ, Utf8.encodeChars_cons, ih]
    rfl

theorem encode_append_zeros (p : String) (n : Nat) :
    Utf8.encode (p ++ zeros n) = Utf8.encode p ++ List.replicate n 0 := by
  rw [Utf8.encode, Utf8.encode, zeros, String.toList_append, String.toList_ofList,
    Utf8.encodeChars_append, encodeChars_replicate_zero]

/-! ## 4. What follows -/

/-- **Passwords with one block are one password.**  A key that is derived, its failures and the
buffer do not tell them apart, and neither do the outcome and the events of sealing and unsealing.
A password and the same with zero characters behind it are such passwords while they fit into a
block, and so are a longer one and its hash. -/
theorem messages_eq_of_paddedKey_eq :
    (∀ p q : List UInt8, paddedKey p = paddedKey q → ∀ (buffer : Key) (salt : List UInt8) (n : Nat),
      deriveKeyInto buffer p salt n = deriveKeyInto buffer q salt n) ∧
    (∀ p q : String, paddedKey (Utf8.encode p) = paddedKey (Utf8.encode q) →
      ∀ (s : Settings) (identifier : String),
        (∀ plaintext,
          s.sealText ⟨identifier, p⟩ plaintext = s.sealText ⟨identifier, q⟩ plaintext) ∧
        ∀ text, s.unsealText ⟨identifier, p⟩ text = s.unsealText ⟨identifier, q⟩ text) ∧
    (∀ (p : String) (n : Nat), (Utf8.encode p).length + n ≤ 64 →
      Opens p (p ++ zeros n) ∧ Opens (p ++ zeros n) p) ∧
    ∀ p : List UInt8, 64 < p.length →
      (Sha1.Textbook.hash p).length = 20 ∧ ∀ (buffer : Key) (salt : List UInt8) (n : Nat),
        deriveKeyInto buffer p salt n = deriveKeyInto buffer (Sha1.Textbook.hash p) salt n := by
  refine ⟨?keys, ?messages, ?zeros, ?hashed⟩
  case keys =>
    intro p q h
    exact deriveKeyInto_eq_of_paddedKey_eq h
  case messages =>
    intro p q h s identifier
    exact ⟨Settings.sealText_eq_of_paddedKey_eq h s identifier,
      Settings.unsealText_eq_of_paddedKey_eq h s identifier⟩
  case zeros =>
    intro p n fits
    have same : paddedKey (Utf8.encode (p ++ zeros n)) = paddedKey (Utf8.encode p) := by
      rw [encode_append_zeros]
      exact Hmac.Textbook.paddedKey_append_zeros fits
    exact ⟨opens_of_paddedKey_eq same.symm, opens_of_paddedKey_eq same⟩
  case hashed =>
    intro p long
    exact ⟨Sha1.Textbook.length_hash p,
      deriveKeyInto_eq_of_paddedKey_eq (Hmac.Textbook.paddedKey_hash long).symm⟩

/-- A zero character behind a password is not seen, and a password of 65 bytes is its hash. -/
theorem messages_eq_of_zero_behind :
    paddedKey (Utf8.encode "a") = paddedKey (Utf8.encode "a\x00") ∧
    Settings.standard.unsealText ⟨"sixteen bytes id", "a"⟩ "text" =
      Settings.standard.unsealText ⟨"sixteen bytes id", "a\x00"⟩ "text" ∧
    (∃ text, (Settings.standard.sealText ⟨"sixteen bytes id", "a"⟩ "text").outcome = .ok text ∧
      (Settings.standard.unsealText ⟨"sixteen bytes id", "a\x00"⟩ text).outcome = .ok "text") ∧
    64 < (List.replicate 65 (1 : UInt8)).length ∧
    deriveKeyInto (Vector.replicate 32 0) (List.replicate 65 1) [] 1 =
      deriveKeyInto (Vector.replicate 32 0) (Sha1.Textbook.hash (List.replicate 65 1)) [] 1 := by
  obtain ⟨-, messages, opens, hashed⟩ := messages_eq_of_paddedKey_eq
  have same : paddedKey (Utf8.encode "a") = paddedKey (Utf8.encode "a\x00") := by decide
  have long : 64 < (List.replicate 65 (1 : UInt8)).length := by decide
  have sealable : ∃ text, (Settings.standard.sealText ⟨"sixteen bytes id", "a"⟩
      "text").outcome = .ok text := Settings.exists_sealText_eq_ok_iff.mpr (by decide)
  obtain ⟨text, sealed⟩ := sealable
  have opened := (opens "a" 1 (by decide)).1 _ _ _ _ sealed
  exact ⟨same, (messages "a" "a\x00" same _ _).2 _, ⟨text, sealed, opened⟩, long,
    (hashed _ long).2 _ _ _⟩

end PasswordSeal
