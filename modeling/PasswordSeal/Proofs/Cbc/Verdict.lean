/-
# What decryption makes of any bytes

`Cbc.decrypt` has three answers, and each is tied here to the bytes that it is given.

* Bytes that are not one block or more are refused with their number.
* Bytes that some plaintext encrypts to are decrypted to that plaintext.
* All others are refused because no padding comes out of them.

**Decryption succeeds on nothing but what was encrypted.**  Padding that comes off whole blocks
is as long as `Padding.pad` would make it (`append_run_eq_pad`), and the reverse of the chain has
no other source than the chain (`encrypt_of_decryptBlocks`).  So bytes that decrypt to `p` are
the encryption of `p` and no others, and `p` is the only plaintext that they encrypt.
-/
import PasswordSeal.Cbc.Basic

namespace PasswordSeal

/-! ## 1. Padding that can be taken off -/

namespace Padding

/-- Padding is taken off just where some bytes end in a run of 1 to 16 bytes that are their
number. -/
theorem unpad?_eq_some_iff {padded p : List UInt8} :
    unpad? padded = some p ↔ ∃ k, 1 ≤ k ∧ k ≤ blockSize ∧ padded = p ++ run k := by
  constructor
  · exact eq_append_of_unpad?
  · rintro ⟨k, h1, h16, rfl⟩
    exact unpad?_append_run p h1 h16

theorem unpad?_eq_none_iff {padded : List UInt8} :
    unpad? padded = none ↔ ∀ k, 1 ≤ k → k ≤ blockSize → ¬ run k <:+ padded := by
  rw [Option.eq_none_iff_forall_ne_some]
  constructor
  · rintro h k h1 h16 ⟨p, rfl⟩
    exact h p (unpad?_append_run p h1 h16)
  · intro h p hp
    obtain ⟨k, h1, h16, rfl⟩ := eq_append_of_unpad? hp
    exact h k h1 h16 (List.suffix_append p (run k))

/-- **Whole blocks have no choice of padding.**  Behind `p` there is one length between 1 and 16
that fills the last block. -/
theorem append_run_eq_pad {p : List UInt8} {k : Nat} (h1 : 1 ≤ k) (h16 : k ≤ blockSize)
    (h : blockSize ∣ (p ++ run k).length) : p ++ run k = pad p := by
  have hk : k = count p.length := by
    simp only [run, List.length_append, List.length_replicate, blockSize, count] at h h16 ⊢
    omega
  rw [pad, ← hk]

end Padding

/-! ## 2. The three answers of decryption -/

namespace Cbc

theorem aligned_iff {c : List UInt8} : Aligned c ↔ c ≠ [] ∧ c.length % blockSize = 0 := by
  rw [Aligned, Nat.dvd_iff_mod_eq_zero]

theorem aligned_iff_length {c : List UInt8} : Aligned c ↔ c.length ≠ 0 ∧ c.length % 16 = 0 := by
  rw [aligned_iff, ne_eq, ne_eq, List.length_eq_zero_iff]
  rfl

/-- The blocks of aligned bytes decrypt to as many bytes. -/
theorem length_decryptBlocks (key : Key) (iv : Block) {c : List UInt8} (h : Aligned c) :
    (decryptBlocks key iv c).length = c.length := by
  have blocks := congrArg List.length (Bytes.join_chunks (n := 16) c h.2)
  rw [Bytes.length_join] at blocks
  rw [decryptBlocks_eq, Bytes.length_join, length_unchain, blocks]

theorem decrypt_eq_misaligned_iff {key : Key} {iv : Block} {c : List UInt8} {n : Nat} :
    decrypt key iv c = .error (.misaligned n) ↔ ¬ Aligned c ∧ n = c.length := by
  by_cases h : Aligned c
  · simp only [decrypt, h, if_true, not_true, false_and, iff_false]
    split <;> simp
  · simp [decrypt, h, eq_comm]

theorem decrypt_eq_unpadded_iff {key : Key} {iv : Block} {c : List UInt8} :
    decrypt key iv c = .error .unpadded ↔
      Aligned c ∧ ∀ k, 1 ≤ k → k ≤ blockSize → ¬ Padding.run k <:+ decryptBlocks key iv c := by
  rw [← Padding.unpad?_eq_none_iff]
  by_cases h : Aligned c
  · cases hp : Padding.unpad? (decryptBlocks key iv c) <;> simp [decrypt, h, hp]
  · simp [decrypt, h]

theorem decrypt_eq_ok_iff_append_run {key : Key} {iv : Block} {c p : List UInt8} :
    decrypt key iv c = .ok p ↔
      Aligned c ∧ ∃ k, 1 ≤ k ∧ k ≤ blockSize ∧ decryptBlocks key iv c = p ++ Padding.run k := by
  rw [← Padding.unpad?_eq_some_iff]
  by_cases h : Aligned c
  · cases hp : Padding.unpad? (decryptBlocks key iv c) <;> simp [decrypt, h, hp]
  · simp [decrypt, h]

/-! ## 3. The image of encryption -/

/-- Blocks that decrypt to a padded plaintext are its encryption: each encrypted block is found
again from the block that it decrypts to and the one before it. -/
theorem encrypt_of_decryptBlocks {key : Key} {iv : Block} {c p : List UInt8} (h : Aligned c)
    (hp : decryptBlocks key iv c = Padding.pad p) : encrypt key iv p = c := by
  calc encrypt key iv p
      = Bytes.join (chain (Aes.encrypt key) iv (Bytes.chunks 16 (decryptBlocks key iv c))) := by
        rw [encrypt_eq, hp]
    _ = Bytes.join (Bytes.chunks 16 c) := by
        rw [decryptBlocks_eq, Bytes.chunks_join (by decide),
          chain_unchain (Aes.encrypt_decrypt key)]
    _ = c := Bytes.join_chunks c h.2

/-- **Decryption is the reverse of encryption, in both directions.** -/
theorem decrypt_eq_ok_iff {key : Key} {iv : Block} {c p : List UInt8} :
    decrypt key iv c = .ok p ↔ c = encrypt key iv p := by
  constructor
  · intro h
    obtain ⟨aligned, k, h1, h16, hp⟩ := decrypt_eq_ok_iff_append_run.mp h
    have whole : blockSize ∣ (p ++ Padding.run k).length := by
      rw [← hp, length_decryptBlocks key iv aligned]
      exact aligned.2
    rw [Padding.append_run_eq_pad h1 h16 whole] at hp
    exact (encrypt_of_decryptBlocks aligned hp).symm
  · rintro rfl
    exact decrypt_encrypt key iv p

/-- Three answers are all there are, so a ciphertext of whole blocks that is not decrypted has no
padding. -/
theorem decrypt_eq_unpadded_iff_forall_ne {key : Key} {iv : Block} {c : List UInt8} :
    decrypt key iv c = .error .unpadded ↔ Aligned c ∧ ∀ p, c ≠ encrypt key iv p := by
  constructor
  · intro h
    refine ⟨(decrypt_eq_unpadded_iff.mp h).1, fun p hp => ?_⟩
    rw [decrypt_eq_ok_iff.mpr hp] at h
    cases h
  · rintro ⟨aligned, hne⟩
    cases h : decrypt key iv c with
    | ok p => exact absurd (decrypt_eq_ok_iff.mp h) (hne p)
    | error fault =>
      cases fault with
      | misaligned n => exact absurd aligned (decrypt_eq_misaligned_iff.mp h).1
      | unpadded => rfl

/-- **The verdict on any bytes.**  Their number is refused when it is zero or blocks do not fill
it; the plaintext is returned whose encryption they are; and whole blocks that are the encryption
of nothing have no padding. -/
theorem decrypt_verdict (key : Key) (iv : Block) (c : List UInt8) :
    (∀ n, decrypt key iv c = .error (.misaligned n) ↔
      (c = [] ∨ c.length % 16 ≠ 0) ∧ n = c.length) ∧
    (∀ p, decrypt key iv c = .ok p ↔ c = encrypt key iv p) ∧
    (decrypt key iv c = .error .unpadded ↔
      (c ≠ [] ∧ c.length % 16 = 0) ∧ ∀ p, c ≠ encrypt key iv p) := by
  refine ⟨fun n => ?_, fun p => decrypt_eq_ok_iff, ?_⟩
  · rw [decrypt_eq_misaligned_iff, aligned_iff, Decidable.not_and_iff_not_or_not, ne_eq,
      Decidable.not_not]
    rfl
  · rw [decrypt_eq_unpadded_iff_forall_ne, aligned_iff]
    rfl

end Cbc
end PasswordSeal
