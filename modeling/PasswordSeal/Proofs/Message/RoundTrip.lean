/-
# What a sealed text can be unsealed to

A text is unsealed to a plaintext just when sealing that plaintext gives the same text, up to
blanks (`unsealText_eq_ok_iff_sealText`).  The settings may differ in their layout, but not in
their iterations.

**Both directions come from the stages.**  Each stage of unsealing succeeds on nothing but what
the stage of sealing gives: UTF-8 by `Utf8.decode_eq_ok_iff`, the cipher and its padding by
`Cbc.decrypt_eq_ok_iff`, and Base64 by `Base64.decode_eq_ok_iff`, which looks away from blanks.
So besides the round trip this says that a plaintext has no other sealed text: whoever changes
one character that is no blank changes the plaintext, or makes the text one that cannot be
unsealed.
-/
import PasswordSeal.Proofs.Base64.Text
import PasswordSeal.Proofs.Cbc.Verdict
import PasswordSeal.Proofs.Message.Stages

namespace PasswordSeal

namespace Settings

variable {s : Settings} {c : Credentials}

/-- A text is unsealed to a plaintext when it writes the encryption of the plaintext. -/
theorem unsealText_eq_ok_iff_encrypt {plaintext text : String} :
    (s.unsealText c text).outcome = .ok plaintext ↔
      ∃ iv : Block, iv.toList <+: Utf8.encode c.identifier ∧
        Base64.significant text =
          Base64.encodeChars (Cbc.encrypt (s.key c) iv (Utf8.encode plaintext)) := by
  simp only [unsealText_eq_ok_iff_stages, Cbc.decrypt_eq_ok_iff, exists_eq_right,
    Base64.decode_eq_ok_iff]

/-- What was sealed can be unsealed. -/
theorem unsealText_of_sealText {plaintext text : String}
    (h : (s.sealText c plaintext).outcome = .ok text) :
    (s.unsealText c text).outcome = .ok plaintext := by
  obtain ⟨iv, hiv, rfl⟩ := sealText_eq_ok_iff.mp h
  exact unsealText_eq_ok_iff_encrypt.mpr ⟨iv, hiv, Base64.significant_encode _ _⟩

/-- Credentials give the same key with as many iterations. -/
theorem key_congr {s s' : Settings} (h : s.iterations = s'.iterations) : s.key c = s'.key c := by
  rw [key, key, h]

end Settings

/-- **Unsealing is the reverse of sealing, up to layout and blanks.**  The functions without
settings are those of the standard ones. -/
theorem unsealText_eq_ok_iff_sealText (s s' : Settings) (same : s.iterations = s'.iterations)
    (c : Credentials) (plaintext text : String) :
    ((s'.unsealText c text).outcome = .ok plaintext ↔
      ∃ sealed, (s.sealText c plaintext).outcome = .ok sealed ∧
        Base64.withoutBlanks sealed = Base64.withoutBlanks text) ∧
    sealText c plaintext = Settings.standard.sealText c plaintext ∧
    unsealText c text = Settings.standard.unsealText c text := by
  refine ⟨?_, rfl, rfl⟩
  rw [Settings.unsealText_eq_ok_iff_encrypt, ← Settings.key_congr same,
    ← Base64.significant_eq text]
  constructor
  · rintro ⟨iv, hiv, htext⟩
    refine ⟨_, Settings.sealText_eq_ok_iff.mpr ⟨iv, hiv, rfl⟩, ?_⟩
    rw [← Base64.significant_eq, Base64.significant_encode, htext]
  · rintro ⟨sealed, hsealed, htext⟩
    obtain ⟨iv, hiv, rfl⟩ := Settings.sealText_eq_ok_iff.mp hsealed
    refine ⟨iv, hiv, ?_⟩
    rw [← htext, ← Base64.significant_eq, Base64.significant_encode]

/-- A text that was sealed in one line is unsealed under settings that ask for lines. -/
theorem exists_sealText_unsealText_mime :
    Settings.standard.iterations = (Settings.standard.withLayout .mime).iterations ∧
      ∃ sealed,
        (Settings.standard.sealText ⟨"0123456789ABCDEF", "correct-password"⟩
          "secret-value").outcome = .ok sealed ∧
        ((Settings.standard.withLayout .mime).unsealText ⟨"0123456789ABCDEF", "correct-password"⟩
          sealed).outcome = .ok "secret-value" := by
  have long : 16 ≤ (Utf8.encode "0123456789ABCDEF").length := by decide
  obtain ⟨iv, hiv⟩ := exists_initialBlock_iff.mpr long
  have sealable : ∃ sealed,
      (Settings.standard.sealText ⟨"0123456789ABCDEF", "correct-password"⟩
        "secret-value").outcome = .ok sealed :=
    ⟨_, Settings.sealText_eq_ok_iff.mpr ⟨iv, hiv, rfl⟩⟩
  obtain ⟨sealed, hsealed⟩ := sealable
  have back := (unsealText_eq_ok_iff_sealText Settings.standard
    (Settings.standard.withLayout .mime) rfl ⟨"0123456789ABCDEF", "correct-password"⟩
    "secret-value" sealed).1
  exact ⟨rfl, sealed, hsealed, back.mpr ⟨sealed, hsealed, rfl⟩⟩

end PasswordSeal
