/-
# One round of the cipher

A block is four columns of four bytes.  A round replaces every byte, moves the bytes of each
row, mixes each column, and combines the result with a round key; the last round mixes nothing.
The reverse of a round undoes the four steps in the opposite order.

* `unround_round`, `round_unround`: a round and its reverse undo each other, whatever the key.
* `unfinish_finish`, `finish_unfinish`: so do the last round and its reverse.
-/
import PasswordSeal.Block
import PasswordSeal.Aes.Column
import PasswordSeal.Aes.Substitution

namespace PasswordSeal
namespace Aes

/-! ## 1. The steps of a round -/

/-- Replaces every byte of a block. -/
def substituteBytes (s : Block) : Block := s.map substitute

/-- Finds the block that was replaced. -/
def unsubstituteBytes (s : Block) : Block := s.map unsubstitute

/-- Moves row `r` of a block by `r` columns to the left.  Byte `i` stands in row `i % 4`. -/
def shiftRows (s : Block) : Block :=
  Vector.ofFn fun i => s[(i.val + 4 * (i.val % 4)) % 16]

/-- Moves row `r` of a block by `r` columns to the right. -/
def unshiftRows (s : Block) : Block :=
  Vector.ofFn fun i => s[(i.val + 12 * (i.val % 4)) % 16]

/-- The byte `k` places below byte `i` in its column, starting again at the top. -/
def below (s : Block) (i : Fin 16) (k : Nat) : UInt8 := s[4 * (i.val / 4) + (i.val + k) % 4]

/-- Mixes every column of a block. -/
def mixColumns (s : Block) : Block :=
  Vector.ofFn fun i => mixByte (below s i 0) (below s i 1) (below s i 2) (below s i 3)

/-- Finds the block whose columns were mixed. -/
def unmixColumns (s : Block) : Block :=
  Vector.ofFn fun i => unmixByte (below s i 0) (below s i 1) (below s i 2) (below s i 3)

/-! ## 2. Rounds -/

/-- A round with its key. -/
def round (s k : Block) : Block := mixColumns (shiftRows (substituteBytes s)) ^^^ k

/-- The reverse of a round. -/
def unround (k s : Block) : Block := unsubstituteBytes (unshiftRows (unmixColumns (s ^^^ k)))

/-- The last round with its key. -/
def finish (s k : Block) : Block := shiftRows (substituteBytes s) ^^^ k

/-- The reverse of the last round. -/
def unfinish (k s : Block) : Block := unsubstituteBytes (unshiftRows (s ^^^ k))

/-! ## 3. The steps and their reverses -/

@[simp] theorem unsubstituteBytes_substituteBytes (s : Block) :
    unsubstituteBytes (substituteBytes s) = s := by
  refine Vector.ext fun i h => ?_
  simp [substituteBytes, unsubstituteBytes]

@[simp] theorem substituteBytes_unsubstituteBytes (s : Block) :
    substituteBytes (unsubstituteBytes s) = s := by
  refine Vector.ext fun i h => ?_
  simp [substituteBytes, unsubstituteBytes]

@[simp] theorem unshiftRows_shiftRows (s : Block) : unshiftRows (shiftRows s) = s := by
  refine Vector.ext fun i h => ?_
  have place : ((i + 12 * (i % 4)) % 16 + 4 * ((i + 12 * (i % 4)) % 16 % 4)) % 16 = i := by omega
  simp only [unshiftRows, shiftRows, Vector.getElem_ofFn, place]

@[simp] theorem shiftRows_unshiftRows (s : Block) : shiftRows (unshiftRows s) = s := by
  refine Vector.ext fun i h => ?_
  have place : ((i + 4 * (i % 4)) % 16 + 12 * ((i + 4 * (i % 4)) % 16 % 4)) % 16 = i := by omega
  simp only [unshiftRows, shiftRows, Vector.getElem_ofFn, place]

/-- Four places below is the byte itself. -/
theorem below_add_four (s : Block) (i : Fin 16) (k : Nat) : below s i (k + 4) = below s i k := by
  have row : (i.val + (k + 4)) % 4 = (i.val + k) % 4 := by omega
  simp only [below, row]

theorem below_zero (s : Block) (i : Fin 16) : below s i 0 = s[i.val] := by
  have place : 4 * (i.val / 4) + (i.val + 0) % 4 = i.val := by omega
  simp only [below, place]

/-- A column is mixed as a whole. -/
theorem below_mixColumns (s : Block) (i : Fin 16) (k : Nat) :
    below (mixColumns s) i k =
      mixByte (below s i k) (below s i (k + 1)) (below s i (k + 2)) (below s i (k + 3)) := by
  have column : (4 * (i.val / 4) + (i.val + k) % 4) / 4 = i.val / 4 := by omega
  have row : (4 * (i.val / 4) + (i.val + k) % 4) % 4 = (i.val + k) % 4 := by omega
  have next (m : Nat) :
      (4 * (i.val / 4) + (i.val + k) % 4 + m) % 4 = (i.val + (k + m)) % 4 := by omega
  simp only [below, mixColumns, Vector.getElem_ofFn, column, Nat.add_zero, row, next]

theorem below_unmixColumns (s : Block) (i : Fin 16) (k : Nat) :
    below (unmixColumns s) i k =
      unmixByte (below s i k) (below s i (k + 1)) (below s i (k + 2)) (below s i (k + 3)) := by
  have column : (4 * (i.val / 4) + (i.val + k) % 4) / 4 = i.val / 4 := by omega
  have row : (4 * (i.val / 4) + (i.val + k) % 4) % 4 = (i.val + k) % 4 := by omega
  have next (m : Nat) :
      (4 * (i.val / 4) + (i.val + k) % 4 + m) % 4 = (i.val + (k + m)) % 4 := by omega
  simp only [below, unmixColumns, Vector.getElem_ofFn, column, Nat.add_zero, row, next]

@[simp] theorem unmixColumns_mixColumns (s : Block) : unmixColumns (mixColumns s) = s := by
  refine Vector.ext fun i h => ?_
  simp only [unmixColumns, Vector.getElem_ofFn, below_mixColumns, Nat.zero_add, Nat.reduceAdd]
  rw [below_add_four s _ 0, below_add_four s _ 1, below_add_four s _ 2, unmixByte_mixByte,
    below_zero]

@[simp] theorem mixColumns_unmixColumns (s : Block) : mixColumns (unmixColumns s) = s := by
  refine Vector.ext fun i h => ?_
  simp only [mixColumns, Vector.getElem_ofFn, below_unmixColumns, Nat.zero_add, Nat.reduceAdd]
  rw [below_add_four s _ 0, below_add_four s _ 1, below_add_four s _ 2, mixByte_unmixByte,
    below_zero]

/-! ## 4. A round and its reverse -/

@[simp] theorem unround_round (s k : Block) : unround k (round s k) = s := by
  simp [unround, round]

@[simp] theorem round_unround (s k : Block) : round (unround k s) k = s := by
  simp [unround, round]

@[simp] theorem unfinish_finish (s k : Block) : unfinish k (finish s k) = s := by
  simp [unfinish, finish]

@[simp] theorem finish_unfinish (s k : Block) : finish (unfinish k s) k = s := by
  simp [unfinish, finish]

end Aes
end PasswordSeal
