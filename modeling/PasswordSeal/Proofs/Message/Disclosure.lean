/-
# What sealing a text discloses

Two callers seal texts with the same settings.  Their identifiers are equally long, and so are their
plaintexts, in bytes; all else may differ, the passwords too.  Then nobody can tell the calls apart
but by the symbols of the sealed texts (`sealText_discloses_lengths`): they fail alike or not at
all, they log the same, and their texts have line breaks and pad characters in the same places.

A call fails by the length of its identifier only, and then its failure holds nothing else.  When it
does not fail, its events hold lengths, and its ciphertext is as long as the plaintext makes it, so
that `Base64.sameShape_encode` speaks of the texts.
-/
import PasswordSeal.Proofs.Base64.Shape
import PasswordSeal.Proofs.Message.Log

namespace PasswordSeal

/-- Identifiers of one length give initial blocks together, or fail alike. -/
theorem initialBlock_of_length_eq {identifier identifier' : String}
    (h : (Utf8.encode identifier).length = (Utf8.encode identifier').length) :
    (∃ e, initialBlock identifier = .error e ∧ initialBlock identifier' = .error e) ∨
      ∃ iv iv', initialBlock identifier = .ok iv ∧ initialBlock identifier' = .ok iv' := by
  rcases Nat.lt_or_ge (Utf8.encode identifier).length 16 with short | long
  · refine .inl ⟨_, initialBlock_eq_error_iff.mpr ⟨short, rfl⟩,
      initialBlock_eq_error_iff.mpr ⟨h ▸ short, ?_⟩⟩
    rw [h]
  · obtain ⟨iv, starts⟩ := exists_initialBlock_iff.mpr long
    obtain ⟨iv', starts'⟩ := exists_initialBlock_iff.mpr (h ▸ long)
    exact .inr ⟨iv, iv', initialBlock_eq_ok_iff.mpr starts, initialBlock_eq_ok_iff.mpr starts'⟩

/-- **Sealing discloses lengths.**  Under identifiers of one length, plaintexts of one length are
both not sealed, for the same reason, or both sealed, in texts of the same shape; and both calls log
the same events. -/
theorem sealText_discloses_lengths (s : Settings) (c c' : Credentials) (x x' : String)
    (identifiers : (Utf8.encode c.identifier).length = (Utf8.encode c'.identifier).length)
    (plaintexts : (Utf8.encode x).length = (Utf8.encode x').length) :
    ((∃ e, (s.sealText c x).outcome = .error e ∧ (s.sealText c' x').outcome = .error e) ∨
      ∃ t t', (s.sealText c x).outcome = .ok t ∧ (s.sealText c' x').outcome = .ok t' ∧
        Base64.SameShape t t') ∧
    (s.sealText c x).events = (s.sealText c' x').events := by
  rcases initialBlock_of_length_eq identifiers with ⟨e, he, he'⟩ | ⟨iv, iv', hiv, hiv'⟩
  · rw [Settings.sealText_of_initialBlock_error he, Settings.sealText_of_initialBlock_error he']
    exact ⟨.inl ⟨e, rfl, rfl⟩, rfl⟩
  · rw [Settings.sealText_of_initialBlock_ok hiv, Settings.sealText_of_initialBlock_ok hiv']
    refine ⟨.inr ⟨_, _, rfl, rfl, Base64.sameShape_encode s.layout ?_⟩, ?_⟩
    · rw [Cbc.length_encrypt, Cbc.length_encrypt, plaintexts]
    · rw [identifiers, plaintexts]

/-- Two callers with nothing in common but the bytes of their identifiers and plaintexts, which are
as many. -/
theorem sealText_discloses_lengths_multibyte :
    let c : Credentials := ⟨"sixteen bytes id", "password"⟩
    let c' : Credentials := ⟨"ääääöööö", ""⟩
    let s := Settings.standard.withLayout .mime
    ∃ t t', (s.sealText c "ab").outcome = .ok t ∧ (s.sealText c' "é").outcome = .ok t' ∧
      Base64.SameShape t t' ∧ (s.sealText c "ab").events = (s.sealText c' "é").events := by
  intro c c' s
  have identifiers : (Utf8.encode c.identifier).length = (Utf8.encode c'.identifier).length := by
    decide
  have plaintexts : (Utf8.encode "ab").length = (Utf8.encode "é").length := by decide
  obtain ⟨⟨e, fails, -⟩ | ⟨t, t', sealed, sealed', alike⟩, events⟩ :=
    sealText_discloses_lengths s c c' "ab" "é" identifiers plaintexts
  · obtain ⟨short, -⟩ := Settings.sealText_eq_error_iff.mp fails
    exact absurd short (by decide)
  · exact ⟨t, t', sealed, sealed', alike, events⟩

end PasswordSeal
