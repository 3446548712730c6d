/-
# Which failure a text is answered with

Text, identifier and password may be wrong in several ways at once.  `unsealText_failureMap` says
for every answer just when it is given, so it says also which fault comes first: the identifier,
the Base64, the number of bytes, the padding, and then the text.

**Where nothing secret is looked at, nothing secret shows.**  The first three failures are decided
before there is a key, so they are the same under every password and every count of iterations.
The layout is never looked at.

**Decryption is stated apart from the program.**  `DecryptsTo` takes the bytes with their padding
on from `Cbc.plainBlocks`, which goes by the numbers of the blocks, and the padding is spelled out.
-/
import PasswordSeal.Proofs.Cbc.Textbook
import PasswordSeal.Proofs.Cbc.Verdict
import PasswordSeal.Proofs.Message.Stages

namespace PasswordSeal

/-! ## 1. Bytes that are decrypted -/

/-- A text writes whole blocks, at least one, and they decrypt to `padded`: under the key of the
credentials, behind the first sixteen bytes of the identifier. -/
def DecryptsTo (s : Settings) (c : Credentials) (text : String) (padded : List UInt8) : Prop :=
  ∃ iv : Block, iv.toList <+: Utf8.encode c.identifier ∧
    ∃ ciphertext, Base64.decode text = .ok ciphertext ∧
      (ciphertext.length ≠ 0 ∧ ciphertext.length % 16 = 0) ∧
      padded = Cbc.plainBlocks
        (Pbkdf2.derive (Utf8.encode c.password) (Utf8.encode c.identifier) s.iterations)
        iv ciphertext

/-- `k` bytes of value `k`, between 1 and 16 of them. -/
def IsPadding (padding : List UInt8) : Prop :=
  ∃ k, 1 ≤ k ∧ k ≤ 16 ∧ padding = List.replicate k (UInt8.ofNat k)

/-- **When each answer is given.** -/
structure FailureMap (s : Settings) (c : Credentials) (text : String)
    (answer : Except Failure String) : Prop where
  /-- The identifier comes first, whatever the text. -/
  shortIdentifier : ∀ n, answer = .error (.shortIdentifier n) ↔
    (Utf8.encode c.identifier).length < 16 ∧ n = (Utf8.encode c.identifier).length
  /-- The fault of the text is passed on. -/
  encoding : ∀ fault, answer = .error (.encoding fault) ↔
    16 ≤ (Utf8.encode c.identifier).length ∧ Base64.decode text = .error fault
  misaligned : ∀ n, answer = .error (.cipher (.misaligned n)) ↔
    16 ≤ (Utf8.encode c.identifier).length ∧
      ∃ ciphertext, Base64.decode text = .ok ciphertext ∧
        (ciphertext.length = 0 ∨ ciphertext.length % 16 ≠ 0) ∧ n = ciphertext.length
  /-- There is no padding to take off. -/
  unpadded : answer = .error (.cipher .unpadded) ↔
    ∃ padded, DecryptsTo s c text padded ∧ ∀ padding, IsPadding padding → ¬ padding <:+ padded
  /-- The payload is handed out whole when it is no text. -/
  notText : ∀ payload, (∃ fault, answer = .error (.notText payload fault)) ↔
    (∃ padding, IsPadding padding ∧ DecryptsTo s c text (payload ++ padding)) ∧
      ∀ plaintext, payload ≠ Utf8.encode plaintext
  /-- Its fault comes with it. -/
  notText_fault : ∀ payload fault, answer = .error (.notText payload fault) ↔
    (∃ padding, IsPadding padding ∧ DecryptsTo s c text (payload ++ padding)) ∧
      Utf8.decode payload = .error fault
  ok : ∀ plaintext, answer = .ok plaintext ↔
    ∃ padding, IsPadding padding ∧ DecryptsTo s c text (Utf8.encode plaintext ++ padding)
  keyDerivation : ∀ reason, answer ≠ .error (.keyDerivation reason)

/-! ## 2. Decryption by the textbook -/

section

variable {s : Settings} {c : Credentials} {text : String}

/-- Bytes are decrypted to a payload when they come to it with padding on. -/
theorem exists_decrypt_eq_ok_iff {payload : List UInt8} :
    (∃ iv : Block, iv.toList <+: Utf8.encode c.identifier ∧
      ∃ ciphertext, Base64.decode text = .ok ciphertext ∧
        Cbc.decrypt (s.key c) iv ciphertext = .ok payload) ↔
      ∃ padding, IsPadding padding ∧ DecryptsTo s c text (payload ++ padding) := by
  constructor
  · rintro ⟨iv, hiv, ciphertext, hc, h⟩
    obtain ⟨aligned, k, h1, h16, hp⟩ := Cbc.decrypt_eq_ok_iff_append_run.mp h
    rw [Cbc.decryptBlocks_eq_plainBlocks] at hp
    exact ⟨Padding.run k, ⟨k, h1, h16, rfl⟩, iv, hiv, ciphertext, hc,
      Cbc.aligned_iff_length.mp aligned, hp.symm⟩
  · rintro ⟨_, ⟨k, h1, h16, rfl⟩, iv, hiv, ciphertext, hc, whole, hp⟩
    rw [← Cbc.decryptBlocks_eq_plainBlocks] at hp
    exact ⟨iv, hiv, ciphertext, hc, Cbc.decrypt_eq_ok_iff_append_run.mpr
      ⟨Cbc.aligned_iff_length.mpr whole, k, h1, h16, hp.symm⟩⟩

/-- Bytes are refused for their padding when they come to nothing that ends in any. -/
theorem exists_decrypt_eq_unpadded_iff :
    (∃ iv : Block, iv.toList <+: Utf8.encode c.identifier ∧
      ∃ ciphertext, Base64.decode text = .ok ciphertext ∧
        Cbc.decrypt (s.key c) iv ciphertext = .error .unpadded) ↔
      ∃ padded, DecryptsTo s c text padded ∧
        ∀ padding, IsPadding padding → ¬ padding <:+ padded := by
  constructor
  · rintro ⟨iv, hiv, ciphertext, hc, h⟩
    obtain ⟨aligned, hp⟩ := Cbc.decrypt_eq_unpadded_iff.mp h
    rw [Cbc.decryptBlocks_eq_plainBlocks] at hp
    refine ⟨_, ⟨iv, hiv, ciphertext, hc, Cbc.aligned_iff_length.mp aligned, rfl⟩, ?_⟩
    rintro _ ⟨k, h1, h16, rfl⟩
    exact hp k h1 h16
  · rintro ⟨_, ⟨iv, hiv, ciphertext, hc, whole, rfl⟩, hp⟩
    refine ⟨iv, hiv, ciphertext, hc, Cbc.decrypt_eq_unpadded_iff.mpr
      ⟨Cbc.aligned_iff_length.mpr whole, fun k h1 h16 => ?_⟩⟩
    rw [Cbc.decryptBlocks_eq_plainBlocks]
    exact hp _ ⟨k, h1, h16, rfl⟩

/-- Bytes are refused for their number before the key or the block `iv` is of any use. -/
theorem exists_decrypt_eq_misaligned_iff {n : Nat} :
    (∃ iv : Block, iv.toList <+: Utf8.encode c.identifier ∧
      ∃ ciphertext, Base64.decode text = .ok ciphertext ∧
        Cbc.decrypt (s.key c) iv ciphertext = .error (.misaligned n)) ↔
      16 ≤ (Utf8.encode c.identifier).length ∧
        ∃ ciphertext, Base64.decode text = .ok ciphertext ∧
          (ciphertext.length = 0 ∨ ciphertext.length % 16 ≠ 0) ∧ n = ciphertext.length := by
  simp only [Cbc.decrypt_eq_misaligned_iff, Cbc.aligned_iff_length, exists_and_right,
    exists_initialBlock_iff, Decidable.not_and_iff_not_or_not, ne_eq, Decidable.not_not]

end

/-! ## 3. The map of failures -/

/-- Bytes have a fault when they are no text. -/
theorem exists_decode_eq_error_iff {payload : List UInt8} :
    (∃ fault, Utf8.decode payload = .error fault) ↔
      ∀ plaintext, payload ≠ Utf8.encode plaintext := by
  simp only [ne_eq, ← Utf8.decode_eq_ok_iff]
  cases Utf8.decode payload with
  | ok p => simp
  | error fault => simp

theorem unsealText_eq_notText_iff {s : Settings} {c : Credentials} {text : String}
    {payload : List UInt8} {fault : Utf8.Fault} :
    (s.unsealText c text).outcome = .error (.notText payload fault) ↔
      (∃ padding, IsPadding padding ∧ DecryptsTo s c text (payload ++ padding)) ∧
        Utf8.decode payload = .error fault := by
  rw [← exists_decrypt_eq_ok_iff, Settings.unsealText_eq_error_iff_stages]
  constructor
  · rintro (⟨-, h⟩ | ⟨iv, hiv, ⟨_, -, h⟩ | ⟨ciphertext, hc, ⟨_, -, h⟩ | ⟨_, hp, _, hf, h⟩⟩⟩)
    · cases h
    · cases h
    · cases h
    · obtain ⟨rfl, rfl⟩ := Failure.notText.inj h
      exact ⟨⟨iv, hiv, ciphertext, hc, hp⟩, hf⟩
  · rintro ⟨⟨iv, hiv, ciphertext, hc, hp⟩, hf⟩
    exact .inr ⟨iv, hiv, .inr ⟨ciphertext, hc, .inr ⟨payload, hp, fault, hf, rfl⟩⟩⟩

/-- Each answer has its stage.  The other stages answer otherwise, so their cases fall away. -/
theorem failureMap_unsealText (s : Settings) (c : Credentials) (text : String) :
    FailureMap s c text (s.unsealText c text).outcome where
  shortIdentifier n := by
    rw [Settings.unsealText_eq_error_iff_stages]
    simp
  encoding fault := by
    rw [Settings.unsealText_eq_error_iff_stages, ← exists_initialBlock_iff]
    simp
  misaligned n := by
    rw [Settings.unsealText_eq_error_iff_stages, ← exists_decrypt_eq_misaligned_iff (s := s)]
    simp
  unpadded := by
    rw [Settings.unsealText_eq_error_iff_stages, ← exists_decrypt_eq_unpadded_iff]
    simp
  notText payload := by
    simp only [unsealText_eq_notText_iff, exists_and_left, exists_decode_eq_error_iff]
  notText_fault payload fault := unsealText_eq_notText_iff
  ok plaintext := by
    rw [Settings.unsealText_eq_ok_iff_stages, exists_decrypt_eq_ok_iff]
  keyDerivation reason h := by
    rw [Settings.unsealText_eq_error_iff_stages] at h
    simp at h

/-- **The first stage that fails decides the answer.**  What is answered before there is a key
does not depend on the password or the iterations, and nothing depends on the layout. -/
theorem unsealText_failureMap (s : Settings) (c : Credentials) (text : String) :
    FailureMap s c text (s.unsealText c text).outcome ∧
    (∀ (s' : Settings) (password : String),
      let answer := (s.unsealText c text).outcome
      let answer' := (s'.unsealText ⟨c.identifier, password⟩ text).outcome
      (∀ n, answer = .error (.shortIdentifier n) ↔ answer' = .error (.shortIdentifier n)) ∧
      (∀ fault, answer = .error (.encoding fault) ↔ answer' = .error (.encoding fault)) ∧
      (∀ n, answer = .error (.cipher (.misaligned n)) ↔
        answer' = .error (.cipher (.misaligned n)))) ∧
    (∀ layout, (s.withLayout layout).unsealText c text = s.unsealText c text) ∧
    unsealText c text = Settings.standard.unsealText c text := by
  refine ⟨failureMap_unsealText s c text, fun s' password => ?_, fun _ => rfl, rfl⟩
  have map := failureMap_unsealText s c text
  have map' := failureMap_unsealText s' ⟨c.identifier, password⟩ text
  refine ⟨fun n => ?_, fun fault => ?_, fun n => ?_⟩
  · exact (map.shortIdentifier n).trans (map'.shortIdentifier n).symm
  · exact (map.encoding fault).trans (map'.encoding fault).symm
  · exact (map.misaligned n).trans (map'.misaligned n).symm

end PasswordSeal
