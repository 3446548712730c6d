/-
# Encryption of byte strings

Bytes of any length are padded, cut into blocks and encrypted in a chain.  Decryption undoes
this where it can.  It needs at least one block and nothing but blocks, and afterwards there
has to be padding to take off; nothing else is checked, so bytes that were tampered with can
decrypt to something.

`decrypt_encrypt`: what was encrypted can be decrypted.
-/
import PasswordSeal.Aes.Cipher
import PasswordSeal.Cbc.Progress

namespace PasswordSeal
namespace Cbc

/-- Why bytes cannot be decrypted. -/
inductive Fault where
  /-- Their number is zero, or blocks do not fill them. -/
  | misaligned (length : Nat)
  /-- What they decrypt to does not end in padding. -/
  | unpadded
  deriving DecidableEq, Repr

/-- The fault in words. -/
def Fault.message : Fault → String
  | .misaligned length =>
    s!"ciphertext length {length} is not a positive multiple of the block size"
  | .unpadded => "padding check failed"

/-- Encrypts some bytes, behind the block `iv`: the blocks that they fill, and then the last
one. -/
def encrypt (key : Key) (iv : Block) (plaintext : List UInt8) : List UInt8 :=
  let schedule := Aes.Schedule.ofKey key
  let whole :=
    (Bytes.chunks 16 plaintext).foldl (Progress.encryptNext schedule.encrypt) (.start iv)
  let last := lastBlock whole.buffer (Bytes.remainder 16 plaintext)
  (whole.encryptNext schedule.encrypt last).output.toList

/-- Decrypts the blocks among some bytes and leaves the padding on. -/
def decryptBlocks (key : Key) (iv : Block) (ciphertext : List UInt8) : List UInt8 :=
  let schedule := Aes.Schedule.ofKey key
  let whole :=
    (Bytes.chunks 16 ciphertext).foldl (Progress.decryptNext schedule.decrypt) (.start iv)
  whole.output.toList

/-- Some bytes are one block or more, and nothing else. -/
def Aligned (ciphertext : List UInt8) : Prop := ciphertext ≠ [] ∧ blockSize ∣ ciphertext.length

instance (c : List UInt8) : Decidable (Aligned c) := inferInstanceAs (Decidable (_ ∧ _))

/-- Decrypts some bytes, behind the block `iv`. -/
def decrypt (key : Key) (iv : Block) (ciphertext : List UInt8) : Except Fault (List UInt8) :=
  if Aligned ciphertext then
    match Padding.unpad? (decryptBlocks key iv ciphertext) with
    | some plaintext => .ok plaintext
    | none => .error .unpadded
  else .error (.misaligned ciphertext.length)

/-- **Encryption pads, cuts into blocks and chains them.**  The loop pads only its last block,
which comes to the same. -/
theorem encrypt_eq (key : Key) (iv : Block) (p : List UInt8) :
    encrypt key iv p =
      Bytes.join (chain (Aes.encrypt key) iv (Bytes.chunks 16 (Padding.pad p))) := by
  have loop := Progress.output_foldl_encryptNext (Aes.encrypt key) (.start iv)
    (Bytes.chunks 16 (Padding.pad p))
  rw [chunks_pad, List.foldl_append] at loop
  rw [chunks_pad]
  exact loop

/-- Decryption cuts into blocks and reverses the chain. -/
theorem decryptBlocks_eq (key : Key) (iv : Block) (c : List UInt8) :
    decryptBlocks key iv c =
      Bytes.join (unchain (Aes.decrypt key) iv (Bytes.chunks 16 c)) :=
  Progress.output_foldl_decryptNext (Aes.decrypt key) (.start iv) (Bytes.chunks 16 c)

/-- The blocks of the padded bytes, and no more. -/
theorem length_encrypt (key : Key) (iv : Block) (p : List UInt8) :
    (encrypt key iv p).length = blockSize * (p.length / blockSize + 1) := by
  have blocks := congrArg List.length
    (Bytes.join_chunks (n := 16) (Padding.pad p) (Padding.dvd_length_pad p))
  rw [Bytes.length_join, Padding.length_pad] at blocks
  rw [encrypt_eq, Bytes.length_join, length_chain, blocks]

theorem decryptBlocks_encrypt (key : Key) (iv : Block) (p : List UInt8) :
    decryptBlocks key iv (encrypt key iv p) = Padding.pad p := by
  rw [decryptBlocks_eq, encrypt_eq, Bytes.chunks_join (by decide),
    unchain_chain (Aes.decrypt_encrypt key)]
  exact Bytes.join_chunks (n := 16) _ (Padding.dvd_length_pad p)

theorem aligned_encrypt (key : Key) (iv : Block) (p : List UInt8) :
    Aligned (encrypt key iv p) := by
  refine ⟨fun h => ?_, ⟨_, length_encrypt key iv p⟩⟩
  have := length_encrypt key iv p
  simp [h, blockSize] at this

/-- What was encrypted can be decrypted. -/
theorem decrypt_encrypt (key : Key) (iv : Block) (p : List UInt8) :
    decrypt key iv (encrypt key iv p) = .ok p := by
  simp [decrypt, aligned_encrypt, decryptBlocks_encrypt]

end Cbc
end PasswordSeal
