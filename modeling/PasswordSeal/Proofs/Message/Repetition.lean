/-
# Messages that begin alike

The key and the initial block come from the credentials and from nothing else, so all texts that are
sealed under one identifier and password, with as many iterations, are encrypted behind the same
block.  Whoever sees two sealed texts therefore sees how many blocks their plaintexts have in common
at the beginning, and whether they are the same; `sealText_shared_blocks` says that this is so to
the block, padding included, and in both directions.  The layouts of the texts may differ.
-/
import PasswordSeal.Proofs.Base64.Text
import PasswordSeal.Proofs.Cbc.Prefix
import PasswordSeal.Proofs.Message.RoundTrip

namespace PasswordSeal

/-- A text that was sealed writes the encryption of the plaintext, behind the initial block that
the identifier gives. -/
theorem Settings.decode_of_sealText {s : Settings} {c : Credentials} {plaintext text : String}
    (h : (s.sealText c plaintext).outcome = .ok text) :
    ∃ iv, initialBlock c.identifier = .ok iv ∧
      Base64.decode text = .ok (Cbc.encrypt (s.key c) iv (Utf8.encode plaintext)) := by
  obtain ⟨iv, hiv, rfl⟩ := sealText_eq_ok_iff.mp h
  exact ⟨iv, initialBlock_eq_ok_iff.mpr hiv,
    Base64.decode_eq_ok_iff.mpr (Base64.significant_encode _ _)⟩

/-- **What two sealed texts have in common.**  Encryptions under one key and behind one block agree
in their first `j` blocks just when the padded plaintexts do, and as a whole just when the
plaintexts are equal.  Texts sealed under one identifier and password, with as many iterations,
write such encryptions, so they share as many blocks as the padded plaintexts share. -/
theorem sealText_shared_blocks :
    (∀ (key : Key) (iv : Block) (p q : List UInt8) (j : Nat),
      (Cbc.encrypt key iv p).take (16 * j) = (Cbc.encrypt key iv q).take (16 * j) ↔
        (Padding.pad p).take (16 * j) = (Padding.pad q).take (16 * j)) ∧
    (∀ (key : Key) (iv : Block) (p q : List UInt8),
      Cbc.encrypt key iv p = Cbc.encrypt key iv q ↔ p = q) ∧
    ∀ (s s' : Settings) (c : Credentials) (x y t u : String), s.iterations = s'.iterations →
      (s.sealText c x).outcome = .ok t → (s'.sealText c y).outcome = .ok u →
      ∃ a b, Base64.decode t = .ok a ∧ Base64.decode u = .ok b ∧ (a = b ↔ x = y) ∧
        Cbc.sharedBlocks a b =
          Cbc.sharedBlocks (Padding.pad (Utf8.encode x)) (Padding.pad (Utf8.encode y)) := by
  refine ⟨fun key iv p q j => Cbc.take_encrypt_eq_iff j, fun key iv p q => Cbc.encrypt_inj, ?_⟩
  intro s s' c x y t u same sealed sealed'
  obtain ⟨iv, hiv, decoded⟩ := Settings.decode_of_sealText sealed
  obtain ⟨iv', hiv', decoded'⟩ := Settings.decode_of_sealText sealed'
  obtain rfl : iv = iv' := Except.ok.inj (hiv.symm.trans hiv')
  rw [← Settings.key_congr same] at decoded'
  exact ⟨_, _, decoded, decoded', Cbc.encrypt_inj.trans Utf8.encode_inj, Cbc.sharedBlocks_encrypt⟩

/-- Two messages of two blocks each, of which they share the first. -/
theorem sealText_shared_first_block :
    let c : Credentials := ⟨"sixteen bytes id", "password"⟩
    let mime := Settings.standard.withLayout .mime
    ∃ t u, (Settings.standard.sealText c "to be or not to be").outcome = .ok t ∧
      (mime.sealText c "to be or not to do").outcome = .ok u ∧
      ∃ a b, Base64.decode t = .ok a ∧ Base64.decode u = .ok b ∧ a ≠ b ∧
        Cbc.sharedBlocks a b = 1 := by
  intro c mime
  have long : 16 ≤ (Utf8.encode c.identifier).length := by decide
  obtain ⟨t, sealed⟩ : ∃ t, (Settings.standard.sealText c "to be or not to be").outcome = .ok t :=
    Settings.exists_sealText_eq_ok_iff.mpr long
  obtain ⟨u, sealed'⟩ : ∃ u, (mime.sealText c "to be or not to do").outcome = .ok u :=
    Settings.exists_sealText_eq_ok_iff.mpr long
  obtain ⟨a, b, decoded, decoded', equal, shared⟩ :=
    sealText_shared_blocks.2.2 Settings.standard mime c _ _ t u rfl sealed sealed'
  refine ⟨t, u, sealed, sealed', a, b, decoded, decoded', ?_, ?_⟩
  · rw [ne_eq, equal]
    decide
  · rw [shared]
    decide +kernel

end PasswordSeal
