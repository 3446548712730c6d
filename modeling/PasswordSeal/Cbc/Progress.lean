/-
# The two loops

Encryption and decryption go through their input once, a block at a time.  Both keep the
encrypted block that came last, which the next block is combined with, and both write over one
buffer again and again.

Encryption takes the whole blocks of its input first.  What is left of the input is shorter than
a block; it goes over the front of the buffer, where the block before it still stands, and the
padding over the rest.

**Nothing of the buffer is seen.**  The loops make the chain of the blocks and the reverse of it
(`output_foldl_encryptNext`, `output_foldl_decryptNext`), and the last block is the rest of the
input with its padding, whatever the buffer held (`toList_lastBlock`).
-/
import PasswordSeal.Bytes.Buffer
import PasswordSeal.Cbc.Chain
import PasswordSeal.Cbc.Padding

namespace PasswordSeal
namespace Cbc

/-- Where a loop stands. -/
structure Progress where
  /-- Written over for every block. -/
  buffer : Block
  /-- The encrypted block that came last. -/
  previous : Block
  /-- What has been made so far. -/
  output : Array UInt8

/-- A block of zero bytes. -/
def zeroBlock : Block := Vector.replicate 16 0

/-- The last block of a plaintext, made in a buffer from the bytes that do not fill a block. -/
def lastBlock (buffer : Block) (tail : List UInt8) : Block :=
  (buffer.overwrite tail).fillFrom tail.length (UInt8.ofNat (blockSize - tail.length))

namespace Progress

/-- Before the first block there is the block `iv`. -/
def start (iv : Block) : Progress := ⟨zeroBlock, iv, #[]⟩

/-- Takes a block of plaintext into the buffer and encrypts it. -/
def encryptNext (encrypt : Block → Block) (s : Progress) (p : Block) : Progress :=
  let c := encrypt (Block.xorOver p s.previous zeroBlock)
  ⟨p, c, s.output ++ c.toArray⟩

/-- Decrypts a block into the buffer. -/
def decryptNext (decrypt : Block → Block) (s : Progress) (c : Block) : Progress :=
  let p := Block.xorOver (decrypt c) s.previous s.buffer
  ⟨p, c, s.output ++ p.toArray⟩

/-- The blocks that were encrypted are the chain behind the block that came last. -/
theorem output_foldl_encryptNext (e : Block → Block) (s : Progress) (ps : List Block) :
    (ps.foldl (encryptNext e) s).output.toList =
      s.output.toList ++ Bytes.join (chain e s.previous ps) := by
  induction ps generalizing s with
  | nil => simp [chain]
  | cons p ps ih =>
    rw [List.foldl_cons, ih, chain, Bytes.join_cons, ← List.append_assoc]
    simp only [encryptNext, Block.xorOver_eq, Array.toList_append, Vector.toList]

theorem output_foldl_decryptNext (d : Block → Block) (s : Progress) (cs : List Block) :
    (cs.foldl (decryptNext d) s).output.toList =
      s.output.toList ++ Bytes.join (unchain d s.previous cs) := by
  induction cs generalizing s with
  | nil => simp [unchain]
  | cons c cs ih =>
    rw [List.foldl_cons, ih, unchain, Bytes.join_cons, ← List.append_assoc]
    simp only [decryptNext, Block.xorOver_eq, Array.toList_append, Vector.toList]

end Progress

/-! ## The last block -/

/-- **The last block is the rest of the plaintext with its padding.** -/
theorem toList_lastBlock (buffer : Block) {tail : List UInt8} (h : tail.length < blockSize) :
    (lastBlock buffer tail).toList = Padding.pad tail := by
  have count : Padding.count tail.length = blockSize - tail.length := by
    rw [Padding.count, Nat.mod_eq_of_lt h]
  rw [lastBlock, Bytes.toList_fillFrom_overwrite buffer (Nat.le_of_lt h), Padding.pad,
    Padding.run, count]
  rfl

/-- The blocks of a padded plaintext are its whole blocks and the last one. -/
theorem chunks_pad (buffer : Block) (p : List UInt8) :
    Bytes.chunks 16 (Padding.pad p) =
      Bytes.chunks 16 p ++ [lastBlock buffer (Bytes.remainder 16 p)] := by
  have short : (Bytes.remainder 16 p).length < blockSize := by
    rw [Bytes.length_remainder]
    exact Nat.mod_lt _ (by decide)
  have padded : Padding.pad p =
      Bytes.join (Bytes.chunks 16 p ++ [lastBlock buffer (Bytes.remainder 16 p)]) := by
    calc Padding.pad p
        = Padding.pad (Bytes.join (Bytes.chunks 16 p) ++ Bytes.remainder 16 p) := by
          rw [Bytes.join_chunks_append_remainder]
      _ = Bytes.join (Bytes.chunks 16 p) ++ Padding.pad (Bytes.remainder 16 p) :=
          Padding.pad_join_append _ _
      _ = _ := by rw [← toList_lastBlock buffer short]; simp [Bytes.join]
  rw [padded, Bytes.chunks_join (by decide)]

end Cbc
end PasswordSeal
