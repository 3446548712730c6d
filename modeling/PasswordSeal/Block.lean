/-
# Blocks and keys

The cipher works on blocks of sixteen bytes under a key of thirty-two.

Blocks are combined by `xorBlocks`, which writes over the front of a buffer and takes its operands
as they come.  Between blocks there is nothing that it could miss (`Block.xorOver_eq`).
-/
import PasswordSeal.Bytes.Buffer

namespace PasswordSeal

/-- The number of bytes in a block. -/
def blockSize : Nat := 16

/-- The number of bytes in a key. -/
def keySize : Nat := 32

/-- What the cipher encrypts at a time. -/
abbrev Block := Bytes 16

/-- The key of the cipher. -/
abbrev Key := Bytes 32

/-- Writes the exclusive or of the first block of `a` and of `b` over the front of a buffer. -/
def xorBlocks (a b buffer : List UInt8) : Bytes.Written := Bytes.xorInto blockSize a b buffer

namespace Block

/-- Writes the exclusive or of two blocks over a third. -/
def xorOver (a b buffer : Block) : Block :=
  ⟨(xorBlocks a.toList b.toList buffer.toList).buffer.toArray, by simp [xorBlocks]⟩

/-- The buffer does not matter. -/
@[simp] theorem xorOver_eq (a b buffer : Block) : xorOver a b buffer = a ^^^ b :=
  Vector.toList_inj.mp (congrArg Bytes.Written.buffer (Bytes.xorInto_toList a b buffer))

end Block

end PasswordSeal
