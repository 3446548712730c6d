/-
# The stages of a message

Sealing and unsealing are a few stages, one after another, and log on the way.  Their outcomes
do not depend on what is logged: `outcome_sealText` and `outcome_unsealText` give them as the
stages alone.  `unsealText_eq_ok_iff_stages` and `unsealText_eq_error_iff_stages` take the second
of them apart, into what each stage says.

**No key can fail to be derived here.**  Settings hold that there is an iteration, so the key is
a function of the credentials (`Settings.key`), and the stage that derives it drops out.
-/
import PasswordSeal.Message
import PasswordSeal.Proofs.Outcome
import PasswordSeal.Proofs.Utf8.Text

namespace PasswordSeal

open Outcome

/-! ## 1. The initial block -/

/-- The initial block is what the identifier starts with. -/
theorem initialBlock_eq_ok_iff {identifier : String} {iv : Block} :
    initialBlock identifier = .ok iv ↔ iv.toList <+: Utf8.encode identifier := by
  rw [← Bytes.front?_eq_some_iff, initialBlock]
  cases Bytes.front? 16 (Utf8.encode identifier) <;> simp

theorem initialBlock_eq_error_iff {identifier : String} {e : Failure} :
    initialBlock identifier = .error e ↔
      (Utf8.encode identifier).length < 16 ∧
        e = .shortIdentifier (Utf8.encode identifier).length := by
  rw [← Bytes.front?_eq_none_iff, initialBlock]
  cases Bytes.front? 16 (Utf8.encode identifier) <;> simp [eq_comm]

theorem exists_initialBlock_iff {identifier : String} :
    (∃ iv : Block, iv.toList <+: Utf8.encode identifier) ↔
      16 ≤ (Utf8.encode identifier).length := by
  constructor
  · rintro ⟨iv, h⟩
    rw [← iv.length_toList]
    exact h.length_le
  · intro h
    exact ⟨Bytes.front 16 _ h, List.take_prefix 16 _⟩

/-! ## 2. The key -/

theorem messageKey_of_ne_zero (c : Credentials) {n : Nat} (h : n ≠ 0) :
    messageKey c n =
      ⟨.ok (Pbkdf2.derive (Utf8.encode c.password) (Utf8.encode c.identifier) n),
        [.keyDerived (Utf8.encode c.identifier).length n]⟩ := by
  rw [messageKey, deriveKey_of_ne_zero h]
  rfl

namespace Settings

variable (s : Settings) (c : Credentials)

/-- The key of the messages under some credentials, with the iterations of the settings. -/
def key : Key :=
  Pbkdf2.derive (Utf8.encode c.password) (Utf8.encode c.identifier) s.iterations

/-- Settings hold that a key can be derived. -/
theorem messageKey_eq :
    messageKey c s.iterations =
      ⟨.ok (s.key c), [.keyDerived (Utf8.encode c.identifier).length s.iterations]⟩ :=
  messageKey_of_ne_zero c (Nat.ne_of_gt s.min_le)

theorem outcome_messageKey : (messageKey c s.iterations).outcome = .ok (s.key c) := by
  rw [messageKey_eq]

/-! ## 3. Outcomes as stages -/

theorem outcome_sealText (plaintext : String) :
    (s.sealText c plaintext).outcome =
      (initialBlock c.identifier).map fun iv =>
        s.layout.encode (Cbc.encrypt (s.key c) iv (Utf8.encode plaintext)) := by
  simp only [sealText, Logged.outcome_reporting, Logged.outcome_bind, Logged.outcome_ofExcept,
    outcome_messageKey, Logged.outcome_emit, Logged.outcome_pure]
  rfl

theorem outcome_unsealText (text : String) :
    (s.unsealText c text).outcome = (do
      let iv ← initialBlock c.identifier
      let ciphertext ← (Base64.decode text).mapError .encoding
      let payload ← (Cbc.decrypt (s.key c) iv ciphertext).mapError .cipher
      readText payload) := by
  simp only [unsealText, Logged.outcome_reporting, Logged.outcome_bind, Logged.outcome_ofExcept,
    outcome_messageKey, Logged.outcome_emit]
  rfl

variable {s c}

theorem sealText_eq_ok_iff {plaintext text : String} :
    (s.sealText c plaintext).outcome = .ok text ↔
      ∃ iv : Block, iv.toList <+: Utf8.encode c.identifier ∧
        s.layout.encode (Cbc.encrypt (s.key c) iv (Utf8.encode plaintext)) = text := by
  simp only [outcome_sealText, map_eq_ok_iff, initialBlock_eq_ok_iff]

theorem exists_sealText_eq_ok_iff {plaintext : String} :
    (∃ text, (s.sealText c plaintext).outcome = .ok text) ↔
      16 ≤ (Utf8.encode c.identifier).length := by
  simp only [sealText_eq_ok_iff, ← exists_initialBlock_iff]
  exact ⟨fun ⟨_, iv, h, _⟩ => ⟨iv, h⟩, fun ⟨iv, h⟩ => ⟨_, iv, h, rfl⟩⟩

/-- Only the identifier can be wrong when a text is sealed. -/
theorem sealText_eq_error_iff {plaintext : String} {e : Failure} :
    (s.sealText c plaintext).outcome = .error e ↔
      (Utf8.encode c.identifier).length < 16 ∧
        e = .shortIdentifier (Utf8.encode c.identifier).length := by
  rw [outcome_sealText, map_eq_error_iff, initialBlock_eq_error_iff]

/-- A text is unsealed when no stage fails. -/
theorem unsealText_eq_ok_iff_stages {plaintext text : String} :
    (s.unsealText c text).outcome = .ok plaintext ↔
      ∃ iv : Block, iv.toList <+: Utf8.encode c.identifier ∧
        ∃ ciphertext, Base64.decode text = .ok ciphertext ∧
          Cbc.decrypt (s.key c) iv ciphertext = .ok (Utf8.encode plaintext) := by
  simp only [outcome_unsealText, readText, bind_eq_ok_iff, mapError_eq_ok_iff,
    initialBlock_eq_ok_iff, Utf8.decode_eq_ok_iff]
  simp only [exists_eq_right]

/-- A text is not unsealed because of the first stage that fails, and for its reason. -/
theorem unsealText_eq_error_iff_stages {text : String} {e : Failure} :
    (s.unsealText c text).outcome = .error e ↔
      (Utf8.encode c.identifier).length < 16 ∧
          e = .shortIdentifier (Utf8.encode c.identifier).length ∨
        ∃ iv : Block, iv.toList <+: Utf8.encode c.identifier ∧
          ((∃ fault, Base64.decode text = .error fault ∧ .encoding fault = e) ∨
            ∃ ciphertext, Base64.decode text = .ok ciphertext ∧
              ((∃ fault, Cbc.decrypt (s.key c) iv ciphertext = .error fault ∧ .cipher fault = e) ∨
                ∃ payload, Cbc.decrypt (s.key c) iv ciphertext = .ok payload ∧
                  ∃ fault, Utf8.decode payload = .error fault ∧ .notText payload fault = e)) := by
  simp only [outcome_unsealText, readText, bind_eq_error_iff, mapError_eq_ok_iff,
    mapError_eq_error_iff, initialBlock_eq_ok_iff, initialBlock_eq_error_iff]

end Settings
end PasswordSeal
