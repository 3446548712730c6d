/-
# The cipher on one block

Fourteen rounds under the round keys of a key.  Reversing the rounds in the opposite order
decrypts, so encryption under any key is a permutation of the blocks (`decrypt_encrypt`,
`encrypt_decrypt`).
-/
import PasswordSeal.Aes.Round
import PasswordSeal.Aes.Schedule

namespace PasswordSeal
namespace Aes

/-! ## 1. Under a schedule -/

namespace Schedule

/-- Encrypts a block: the first key, the rounds that mix columns, and the last round. -/
def encrypt (ks : Schedule) (b : Block) : Block :=
  finish (ks.middle.foldl round (b ^^^ ks.initial)) ks.final

/-- Decrypts a block, from the last round key back to the first. -/
def decrypt (ks : Schedule) (b : Block) : Block :=
  ks.middle.foldr unround (unfinish ks.final b) ^^^ ks.initial

end Schedule

theorem foldr_unround_foldl_round (ks : List Block) (s : Block) :
    ks.foldr unround (ks.foldl round s) = s := by
  induction ks generalizing s with
  | nil => rfl
  | cons k ks ih => simp [ih]

theorem foldl_round_foldr_unround (ks : List Block) (s : Block) :
    ks.foldl round (ks.foldr unround s) = s := by
  induction ks with
  | nil => rfl
  | cons k ks ih => simp [ih]

@[simp] theorem Schedule.decrypt_encrypt (ks : Schedule) (b : Block) :
    ks.decrypt (ks.encrypt b) = b := by
  simp [Schedule.decrypt, Schedule.encrypt, foldr_unround_foldl_round]

@[simp] theorem Schedule.encrypt_decrypt (ks : Schedule) (b : Block) :
    ks.encrypt (ks.decrypt b) = b := by
  simp [Schedule.decrypt, Schedule.encrypt, foldl_round_foldr_unround]

/-! ## 2. Under a key -/

/-- Encrypts a block under a key. -/
def encrypt (key : Key) : Block → Block := (Schedule.ofKey key).encrypt

/-- Decrypts a block under a key. -/
def decrypt (key : Key) : Block → Block := (Schedule.ofKey key).decrypt

@[simp] theorem decrypt_encrypt (key : Key) (b : Block) : decrypt key (encrypt key b) = b :=
  Schedule.decrypt_encrypt _ b

@[simp] theorem encrypt_decrypt (key : Key) (b : Block) : encrypt key (decrypt key b) = b :=
  Schedule.encrypt_decrypt _ b

end Aes
end PasswordSeal
