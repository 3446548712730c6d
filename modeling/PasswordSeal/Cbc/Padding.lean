/-
# Padding to whole blocks

Padding tells its own length: each of its bytes is their number.  There is always some, a whole
block of it when the bytes fill their blocks already, so it can always be taken off again.

* `unpad?_pad`: taking the padding off gives the bytes back.
* `eq_append_of_unpad?`: what `unpad?` takes off is a run of 1 to 16 bytes that are their number.
-/
import PasswordSeal.Block

namespace PasswordSeal
namespace Padding

/-- How many bytes of padding follow `n` bytes. -/
def count (n : Nat) : Nat := blockSize - n % blockSize

/-- A run of padding. -/
def run (k : Nat) : List UInt8 := List.replicate k (UInt8.ofNat k)

/-- Fills some bytes up to whole blocks. -/
def pad (p : List UInt8) : List UInt8 := p ++ run (count p.length)

/-- Takes the padding off; none when the bytes do not end in any. -/
def unpad? (padded : List UInt8) : Option (List UInt8) :=
  match padded.getLast? with
  | none => none
  | some b =>
    let k := b.toNat
    let kept := padded.take (padded.length - k)
    if 1 ≤ k ∧ k ≤ blockSize ∧ padded = kept ++ run k then some kept else none

theorem count_pos (n : Nat) : 1 ≤ count n := by
  simp only [count, blockSize]
  omega

theorem count_le (n : Nat) : count n ≤ blockSize := Nat.sub_le _ _

theorem length_pad (p : List UInt8) :
    (pad p).length = blockSize * (p.length / blockSize + 1) := by
  simp only [pad, run, count, blockSize, List.length_append, List.length_replicate]
  omega

/-- Whole blocks in front of some bytes do not change their padding. -/
theorem pad_join_append (bs : List Block) (tail : List UInt8) :
    pad (Bytes.join bs ++ tail) = Bytes.join bs ++ pad tail := by
  have same : count (Bytes.join bs ++ tail).length = count tail.length := by
    rw [List.length_append, Bytes.length_join, count, count, blockSize, Nat.mul_add_mod]
  rw [pad, same, List.append_assoc, pad]

/-- Padded bytes fill their blocks. -/
theorem dvd_length_pad (p : List UInt8) : blockSize ∣ (pad p).length := ⟨_, length_pad p⟩

/-- Any run of padding is taken off. -/
theorem unpad?_append_run (p : List UInt8) {k : Nat} (h1 : 1 ≤ k) (h16 : k ≤ blockSize) :
    unpad? (p ++ run k) = some p := by
  have hk : (UInt8.ofNat k).toNat = k := by
    simp only [blockSize] at h16
    simp only [UInt8.toNat_ofNat']
    omega
  have last : (p ++ run k).getLast? = some (UInt8.ofNat k) := by
    simp [run, List.getLast?_append, List.getLast?_replicate, show k ≠ 0 by omega]
  have kept : (p ++ run k).take ((p ++ run k).length - k) = p := by
    simp [run]
  rw [unpad?, last]
  simp only [hk, kept, h1, h16, and_self, if_true]

@[simp] theorem unpad?_pad (p : List UInt8) : unpad? (pad p) = some p :=
  unpad?_append_run p (count_pos _) (count_le _)

theorem eq_append_of_unpad? {padded p : List UInt8} (h : unpad? padded = some p) :
    ∃ k, 1 ≤ k ∧ k ≤ blockSize ∧ padded = p ++ run k := by
  unfold unpad? at h
  split at h
  · simp at h
  · rename_i b _
    simp only [Option.ite_none_right_eq_some, Option.some.injEq] at h
    obtain ⟨⟨h1, h16, heq⟩, hp⟩ := h
    exact ⟨b.toNat, h1, h16, hp ▸ heq⟩

end Padding
end PasswordSeal
