/-
# Encryption and decryption as a textbook states them

A textbook pads first and then numbers the blocks: with `C 0` the initial block, each encrypted
block `C i` is the cipher of `P i` combined with `C (i - 1)`.  `Cbc.encrypt` goes about it another
way.  It takes whole blocks as they come, makes the last block in a buffer that still holds the
one before it, and combines and encrypts by routines of its own.

`encrypt_eq_cipherBlocks` says that both give the same bytes, for a plaintext of any length.  Here
the cipher of a block is `Aes.Textbook.encrypt`, which is stated from the field of 256 elements.

Decryption goes by numbers too (`decryptBlocks_eq_plainBlocks`): `P i` is the reverse of the
cipher on `C i`, combined with `C (i - 1)`.
-/
import PasswordSeal.Cbc.Basic
import PasswordSeal.Proofs.Aes.Agreement

namespace PasswordSeal
namespace Cbc

/-! ## 1. Blocks by number -/

/-- Block `i` of some bytes, counted from zero. -/
def blockAt (l : List UInt8) (i : Nat) : Block :=
  Vector.ofFn fun j => l.getD (16 * i + j.val) 0

/-- The first block is what is cut off first. -/
theorem blockAt_zero {l : List UInt8} (h : 16 ≤ l.length) : blockAt l 0 = Bytes.front 16 l h := by
  refine Vector.toList_inj.mp ?_
  refine List.ext_getElem ?_ ?_
  · rw [Vector.length_toList, Vector.length_toList]
  · intro j hj _
    have hj16 : j < 16 := by rwa [Vector.length_toList] at hj
    have hjl : j < l.length := Nat.lt_of_lt_of_le hj16 h
    simp [blockAt, hjl]

theorem blockAt_succ (l : List UInt8) (i : Nat) : blockAt l (i + 1) = blockAt (l.drop 16) i := by
  refine Vector.ext fun j hj => ?_
  have place : 16 * (i + 1) + j = 16 + (16 * i + j) := by omega
  simp [blockAt, place]

/-- **The blocks that are cut off are the blocks by their numbers.** -/
theorem chunks_eq_map_blockAt (l : List UInt8) :
    Bytes.chunks 16 l = (List.range (l.length / 16)).map (blockAt l) := by
  induction l using Bytes.chunks.induct 16 with
  | case1 l hl ih =>
    have enough := hl.2
    have count : l.length / 16 = (l.length - 16) / 16 + 1 := by omega
    have rest : (blockAt l ∘ Nat.succ) = blockAt (l.drop 16) := funext (blockAt_succ l)
    rw [Bytes.chunks, dif_pos hl, ih, List.length_drop, count, List.range_succ_eq_map,
      List.map_cons, List.map_map, rest, blockAt_zero enough]
  | case2 l hl =>
    have count : l.length / 16 = 0 := by omega
    rw [Bytes.chunks, dif_neg hl, count]
    rfl

/-! ## 2. The chain by number -/

/-- A sequence that is made like a chain, step by step, is the chain. -/
theorem chain_map_range' {e : Block → Block} {p c : Nat → Block}
    (step : ∀ i, c (i + 1) = e (p i ^^^ c i)) (start count : Nat) :
    chain e (c start) ((List.range' start count).map p) =
      (List.range' start count).map fun i => c (i + 1) := by
  induction count generalizing start with
  | zero => rfl
  | succ count ih =>
    rw [List.range'_succ, List.map_cons, List.map_cons, chain, ← step start]
    exact congrArg (c (start + 1) :: ·) (ih (start + 1))

/-- Encrypted block `i`, counted from one; number zero is the block `iv`. -/
def cipherBlock (key : Key) (iv : Block) (padded : List UInt8) : (i : Nat) → Block
  | 0 => iv
  | i + 1 => Aes.Textbook.encrypt key (blockAt padded i ^^^ cipherBlock key iv padded i)

/-- **Encryption is the textbook's, padding, chain and cipher.**  The padding is `k` bytes of
value `k`, and `m` blocks of it all are encrypted. -/
theorem encrypt_eq_cipherBlocks (key : Key) (iv : Block) (p : List UInt8) :
    let k := 16 - p.length % 16
    let padded := p ++ List.replicate k (UInt8.ofNat k)
    let m := p.length / 16 + 1
    padded.length = 16 * m ∧
      encrypt key iv p =
        (List.range m).flatMap (fun i => (cipherBlock key iv padded (i + 1)).toList) ∧
      (encrypt key iv p).length = 16 * m := by
  intro k padded m
  have length : padded.length = 16 * m := Padding.length_pad p
  refine ⟨length, ?_, length_encrypt key iv p⟩
  have cipher : Aes.encrypt key = Aes.Textbook.encrypt key := funext (Aes.encrypt_eq_textbook key)
  have count : padded.length / 16 = m := by omega
  calc encrypt key iv p
      = Bytes.join (chain (Aes.encrypt key) iv (Bytes.chunks 16 padded)) := encrypt_eq key iv p
    _ = Bytes.join (chain (Aes.Textbook.encrypt key) (cipherBlock key iv padded 0)
          ((List.range' 0 m).map (blockAt padded))) := by
        rw [cipher, chunks_eq_map_blockAt, count, List.range_eq_range', cipherBlock]
    _ = Bytes.join ((List.range' 0 m).map fun i => cipherBlock key iv padded (i + 1)) := by
        rw [chain_map_range' (fun _ => rfl)]
    _ = (List.range m).flatMap (fun i => (cipherBlock key iv padded (i + 1)).toList) := by
        rw [Bytes.join, List.flatMap_map, List.range_eq_range']

/-! ## 3. The reverse of the chain by number -/

/-- What encrypted block `i`, counted from zero, stands behind: the block before it, or `iv`. -/
def blockBefore (iv : Block) (ciphertext : List UInt8) : (i : Nat) → Block
  | 0 => iv
  | i + 1 => blockAt ciphertext i

/-- Plain block `i`, counted from zero. -/
def plainBlock (key : Key) (iv : Block) (ciphertext : List UInt8) (i : Nat) : Block :=
  Aes.decrypt key (blockAt ciphertext i) ^^^ blockBefore iv ciphertext i

/-- The plain blocks put end to end. -/
def plainBlocks (key : Key) (iv : Block) (ciphertext : List UInt8) : List UInt8 :=
  (List.range (ciphertext.length / 16)).flatMap fun i => (plainBlock key iv ciphertext i).toList

/-- Where each block stands behind the one before it, the chain is reversed block by block. -/
theorem unchain_map_range' {d : Block → Block} {c before : Nat → Block}
    (step : ∀ i, before (i + 1) = c i) (start count : Nat) :
    unchain d (before start) ((List.range' start count).map c) =
      (List.range' start count).map fun i => d (c i) ^^^ before i := by
  induction count generalizing start with
  | zero => rfl
  | succ count ih =>
    rw [List.range'_succ, List.map_cons, List.map_cons, unchain]
    refine congrArg ((d (c start) ^^^ before start) :: ·) ?_
    rw [← step start]
    exact ih (start + 1)

/-- **Decryption of blocks is the textbook's.** -/
theorem decryptBlocks_eq_plainBlocks (key : Key) (iv : Block) (c : List UInt8) :
    decryptBlocks key iv c = plainBlocks key iv c := by
  have step : ∀ i, blockBefore iv c (i + 1) = blockAt c i := fun _ => rfl
  calc decryptBlocks key iv c
      = Bytes.join (unchain (Aes.decrypt key) iv (Bytes.chunks 16 c)) := decryptBlocks_eq key iv c
    _ = Bytes.join (unchain (Aes.decrypt key) (blockBefore iv c 0)
          ((List.range' 0 (c.length / 16)).map (blockAt c))) := by
        rw [chunks_eq_map_blockAt, List.range_eq_range', blockBefore]
    _ = Bytes.join ((List.range' 0 (c.length / 16)).map (plainBlock key iv c)) := by
        rw [unchain_map_range' step]
        rfl
    _ = plainBlocks key iv c := by
        rw [Bytes.join, List.flatMap_map, ← List.range_eq_range', plainBlocks]

end Cbc
end PasswordSeal
