/-
# What encryption shows of the beginning of a plaintext

A block is encrypted with nothing but the blocks before it, so plaintexts that begin alike are
encrypted alike as far as their blocks go, under one key and behind one block `iv`.  The converse
holds too: each step of the chain can be undone, so the first block that differs is encrypted to
another one, whatever comes after it.

* `take_encrypt_eq_iff`: beginnings of whole blocks are encrypted to the same bytes just when they
  are the same, padding included.
* `sharedBlocks_encrypt`: so ciphertexts have as many blocks in common as the padded plaintexts.
* `encrypt_inj`: and only equal plaintexts have equal ciphertexts.
-/
import PasswordSeal.Cbc.Basic

namespace PasswordSeal
namespace Cbc

/-! ## 1. Blocks in common -/

/-- How many blocks two lists have in common before the first that differs. -/
def commonBlocks : List Block → List Block → Nat
  | a :: as, b :: bs => if a = b then commonBlocks as bs + 1 else 0
  | _, _ => 0

theorem le_commonBlocks_iff {as bs : List Block} {j : Nat} :
    j ≤ commonBlocks as bs ↔ (j ≤ as.length ∧ j ≤ bs.length) ∧ as.take j = bs.take j := by
  fun_induction commonBlocks as bs generalizing j with
  | case1 a as bs ih =>
    cases j with
    | zero => simp
    | succ j => simp [ih]
  | case2 a as b bs h =>
    cases j with
    | zero => simp
    | succ j => simp [h]
  | case3 as bs h =>
    cases j with
    | zero => simp
    | succ j =>
      cases as with
      | nil => simp
      | cons a as =>
        cases bs with
        | nil => simp
        | cons b bs => exact absurd rfl (h a as b bs rfl)

/-- How many whole blocks some bytes have in common. -/
def sharedBlocks (a b : List UInt8) : Nat :=
  commonBlocks (Bytes.chunks 16 a) (Bytes.chunks 16 b)

/-- Chains behind one block part where the blocks do that are chained. -/
theorem commonBlocks_chain {e d : Block → Block} (h : ∀ b, d (e b) = b) (before : Block)
    (ps qs : List Block) :
    commonBlocks (chain e before ps) (chain e before qs) = commonBlocks ps qs := by
  -- Numbers with the same lower bounds are equal, and these bounds are about beginnings.
  have same (j : Nat) :
      j ≤ commonBlocks (chain e before ps) (chain e before qs) ↔ j ≤ commonBlocks ps qs := by
    rw [le_commonBlocks_iff, le_commonBlocks_iff, length_chain, length_chain, take_chain,
      take_chain, chain_inj h]
  exact Nat.le_antisymm ((same _).mp (Nat.le_refl _)) ((same _).mpr (Nat.le_refl _))

/-! ## 2. Encryption -/

section

variable {key : Key} {iv : Block} {p q : List UInt8}

theorem chunks_encrypt :
    Bytes.chunks 16 (encrypt key iv p) =
      chain (Aes.encrypt key) iv (Bytes.chunks 16 (Padding.pad p)) := by
  rw [encrypt_eq, Bytes.chunks_join (by decide)]

theorem take_pad (j : Nat) :
    (Padding.pad p).take (16 * j) = Bytes.join ((Bytes.chunks 16 (Padding.pad p)).take j) := by
  rw [← Bytes.take_join, Bytes.join_chunks (n := 16) _ (Padding.dvd_length_pad p)]

/-- **Plaintexts begin alike just where their ciphertexts do.** -/
theorem take_encrypt_eq_iff (j : Nat) :
    (encrypt key iv p).take (16 * j) = (encrypt key iv q).take (16 * j) ↔
      (Padding.pad p).take (16 * j) = (Padding.pad q).take (16 * j) := by
  rw [encrypt_eq, encrypt_eq, Bytes.take_join, Bytes.take_join, take_chain, take_chain,
    take_pad, take_pad, Bytes.join_inj (by decide), Bytes.join_inj (by decide),
    chain_inj (Aes.decrypt_encrypt key)]

theorem sharedBlocks_encrypt :
    sharedBlocks (encrypt key iv p) (encrypt key iv q) =
      sharedBlocks (Padding.pad p) (Padding.pad q) := by
  rw [sharedBlocks, chunks_encrypt, chunks_encrypt, commonBlocks_chain (Aes.decrypt_encrypt key),
    sharedBlocks]

theorem encrypt_inj : encrypt key iv p = encrypt key iv q ↔ p = q := by
  constructor
  · intro h
    have opened := decrypt_encrypt key iv p
    rw [h, decrypt_encrypt] at opened
    exact (Except.ok.inj opened).symm
  · rintro rfl
    rfl

end

end Cbc
end PasswordSeal
