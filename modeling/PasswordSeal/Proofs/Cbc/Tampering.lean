/-
# What a changed block does to the plaintext

Nothing tells whether a ciphertext was changed on its way.  Who combines one block of it with a
difference `d` changes the plaintext in two places: the block that the changed one encrypts is
lost, and the block behind it is combined with `d`, byte for byte, as whoever changed it pleases.
The block `iv` encrypts nothing, so a change of it is seen in the first block only.

`decrypt_tamper` says so for every key, every block and every difference.  The change goes
unnoticed as long as `d` leaves the padding alone, which is in its way only in the last block; and
where the padding was bad, and is not in its way, it stays bad.

**Everything comes from the blocks by their numbers.**  Plain block `i` is made of encrypted block
`i` and the one before it (`plainBlock`), so section 2 has only to look which of the two was
changed.  Section 3 passes from blocks to bytes, and section 4 takes the padding off.
-/
import PasswordSeal.Proofs.Cbc.Textbook
import PasswordSeal.Proofs.Cbc.Verdict

namespace PasswordSeal
namespace Cbc

/-! ## 1. Changing a block -/

/-- Some bytes with a difference in their block `j`, counted from zero. -/
def xorBlockAt (j : Nat) (d : Block) (l : List UInt8) : List UInt8 :=
  l.mapIdx fun i b => if i / 16 = j then b ^^^ d.toList.getD (i % 16) 0 else b

/-- A block `iv` and the ciphertext behind it with a difference in block `j` of the chain: block
zero is `iv`, and the others are those of the ciphertext. -/
def tamper (d : Block) : (j : Nat) → (iv : Block) → (ciphertext : List UInt8) → Block × List UInt8
  | 0, iv, c => (iv ^^^ d, c)
  | j + 1, iv, c => (iv, xorBlockAt j d c)

@[simp] theorem length_tamper (d : Block) (j : Nat) (iv : Block) (c : List UInt8) :
    (tamper d j iv c).2.length = c.length := by
  cases j with
  | zero => rfl
  | succ j => exact List.length_mapIdx

theorem aligned_tamper_iff {d : Block} {j : Nat} {iv : Block} {c : List UInt8} :
    Aligned (tamper d j iv c).2 ↔ Aligned c := by
  rw [aligned_iff_length, aligned_iff_length, length_tamper]

/-! ## 2. The blocks that are made of it -/

theorem getElem?_xorBlockAt_of_ne {i j : Nat} (h : i ≠ j) (d : Block) (l : List UInt8)
    (r : Fin 16) : (xorBlockAt j d l)[16 * i + r.val]? = l[16 * i + r.val]? := by
  have place : (16 * i + r.val) / 16 ≠ j := by omega
  rw [xorBlockAt, List.getElem?_mapIdx]
  simp only [if_neg place]
  exact Option.map_id'

theorem getElem?_xorBlockAt_self (j : Nat) (d : Block) (l : List UInt8) (r : Fin 16) :
    (xorBlockAt j d l)[16 * j + r.val]? = l[16 * j + r.val]?.map (· ^^^ d.get r) := by
  have place : (16 * j + r.val) / 16 = j := by omega
  have offset : (16 * j + r.val) % 16 = r.val := by omega
  have byte : d.toList.getD r.val 0 = d.get r := by
    simp [List.getD_eq_getElem?_getD, Vector.get]
  rw [xorBlockAt, List.getElem?_mapIdx]
  simp only [if_pos place, offset, byte]

theorem blockAt_xorBlockAt_of_ne {i j : Nat} (h : i ≠ j) (d : Block) (l : List UInt8) :
    blockAt (xorBlockAt j d l) i = blockAt l i := by
  refine Vector.ext fun r hr => ?_
  have byte := getElem?_xorBlockAt_of_ne h d l ⟨r, hr⟩
  simp only [blockAt, Vector.getElem_ofFn, List.getD_eq_getElem?_getD, byte]

/-- A whole block is changed as a block. -/
theorem blockAt_xorBlockAt_self {j : Nat} {l : List UInt8} (h : j < l.length / 16) (d : Block) :
    blockAt (xorBlockAt j d l) j = blockAt l j ^^^ d := by
  refine Vector.ext fun r hr => ?_
  have byte := getElem?_xorBlockAt_self j d l ⟨r, hr⟩
  have inside : 16 * j + r < l.length := by omega
  rw [Bytes.getElem_xor]
  simp only [blockAt, Vector.getElem_ofFn, List.getD_eq_getElem?_getD, byte]
  rw [List.getElem?_eq_getElem inside]
  rfl

section PlainBlocks

variable (key : Key) (iv : Block) (c : List UInt8) (d : Block) {i j : Nat}

/-- The blocks that stand neither at the changed block nor behind it are made as before. -/
theorem plainBlock_tamper_of_ne (lost : i + 1 ≠ j) (combined : i ≠ j) :
    plainBlock key (tamper d j iv c).1 (tamper d j iv c).2 i = plainBlock key iv c i := by
  -- Block zero of the chain is `iv`, for the change as for what stands before a plain block, so
  -- both numbers are split.
  cases j with
  | zero =>
    cases i with
    | zero => exact absurd rfl combined
    | succ i => rfl
  | succ j =>
    have own : blockAt (xorBlockAt j d c) i = blockAt c i :=
      blockAt_xorBlockAt_of_ne (fun h => lost (congrArg (· + 1) h)) d c
    cases i with
    | zero => rw [tamper, plainBlock, own, plainBlock]; rfl
    | succ i =>
      have before : blockAt (xorBlockAt j d c) i = blockAt c i :=
        blockAt_xorBlockAt_of_ne (fun h => combined (congrArg (· + 1) h)) d c
      rw [tamper, plainBlock, own, plainBlock]
      simp only [blockBefore, before]

/-- The block behind the changed one is combined with the difference. -/
theorem plainBlock_tamper_self (h : j < c.length / 16) :
    plainBlock key (tamper d j iv c).1 (tamper d j iv c).2 j = plainBlock key iv c j ^^^ d := by
  cases j with
  | zero => exact (Bytes.xor_assoc _ iv d).symm
  | succ j =>
    have own : blockAt (xorBlockAt j d c) (j + 1) = blockAt c (j + 1) :=
      blockAt_xorBlockAt_of_ne (Nat.succ_ne_self j) d c
    have before : blockAt (xorBlockAt j d c) j = blockAt c j ^^^ d :=
      blockAt_xorBlockAt_self (Nat.lt_of_succ_lt h) d
    rw [tamper, plainBlock, own, plainBlock]
    simp only [blockBefore, before, Bytes.xor_assoc]

end PlainBlocks

/-! ## 3. The bytes that are made of it -/

/-- What a difference in block `j` of the chain makes of a plaintext, whose blocks are counted from
zero: block `j` is combined with the difference, and all bytes that stand neither there nor in the
block before it are left. -/
structure Tampered (j : Nat) (d : Block) (p p' : List UInt8) : Prop where
  length_eq : p'.length = p.length
  outside : ∀ i, i / 16 + 1 ≠ j → i / 16 ≠ j → p'[i]? = p[i]?
  combined : ∀ r : Fin 16, p'[16 * j + r.val]? = p[16 * j + r.val]?.map (· ^^^ d.get r)

/-- Each byte stands in a block. -/
theorem exists_eq_add_place (i : Nat) : ∃ r : Fin 16, i = 16 * (i / 16) + r.val :=
  ⟨⟨i % 16, Nat.mod_lt i (by decide)⟩, (Nat.div_add_mod i 16).symm⟩

theorem plainBlocks_eq_join (key : Key) (iv : Block) (c : List UInt8) :
    plainBlocks key iv c =
      Bytes.join ((List.range (c.length / 16)).map (plainBlock key iv c)) := by
  rw [Bytes.join, List.flatMap_map, plainBlocks]

theorem length_plainBlocks (key : Key) (iv : Block) (c : List UInt8) :
    (plainBlocks key iv c).length = 16 * (c.length / 16) := by
  rw [plainBlocks_eq_join, Bytes.length_join, List.length_map, List.length_range]

theorem getElem?_plainBlocks (key : Key) (iv : Block) (c : List UInt8) (i : Nat) (r : Fin 16) :
    (plainBlocks key iv c)[16 * i + r.val]? =
      if i < c.length / 16 then some ((plainBlock key iv c i).get r) else none := by
  rw [plainBlocks_eq_join, Bytes.getElem?_join, List.getElem?_map]
  split
  · rw [List.getElem?_range ‹_›]
    rfl
  · rw [List.getElem?_eq_none (by rw [List.length_range]; omega)]
    rfl

/-- **A changed block acts on the plain blocks, the padding among them.** -/
theorem tampered_plainBlocks (key : Key) (iv : Block) {c : List UInt8} (d : Block) {j : Nat}
    (h : j < c.length / 16) :
    Tampered j d (plainBlocks key iv c)
      (plainBlocks key (tamper d j iv c).1 (tamper d j iv c).2) where
  length_eq := by rw [length_plainBlocks, length_plainBlocks, length_tamper]
  outside i lost combined := by
    obtain ⟨r, place⟩ := exists_eq_add_place i
    rw [place, getElem?_plainBlocks, getElem?_plainBlocks, length_tamper,
      plainBlock_tamper_of_ne key iv c d lost combined]
  combined r := by
    rw [getElem?_plainBlocks, getElem?_plainBlocks, length_tamper, if_pos h, if_pos h,
      plainBlock_tamper_self key iv c d h, Bytes.get_xor, Option.map_some]

/-! ## 4. The padding -/

namespace Tampered

variable {j : Nat} {d : Block} {p p' : List UInt8}

/-- From some byte on nothing has changed, when the lost block stands before it and the difference
is zero there. -/
theorem drop_eq (h : Tampered j d p p') {n : Nat} (behind : 16 * j ≤ n)
    (zero : ∀ r : Fin 16, n ≤ 16 * j + r.val → d.get r = 0) : p'.drop n = p.drop n := by
  refine List.ext_getElem? fun i => ?_
  rw [List.getElem?_drop, List.getElem?_drop]
  by_cases place : (n + i) / 16 = j
  · obtain ⟨r, hr⟩ := exists_eq_add_place (n + i)
    rw [place] at hr
    have unchanged : d.get r = 0 := zero r (by omega)
    rw [hr, h.combined r, unchanged]
    simp only [UInt8.xor_zero, Option.map_id']
  · exact h.outside (n + i) (by omega) place

/-- What is in front of some byte is changed as the whole is. -/
theorem take (h : Tampered j d p p') (n : Nat) : Tampered j d (p.take n) (p'.take n) where
  length_eq := by rw [List.length_take, List.length_take, h.length_eq]
  outside i lost combined := by
    rw [List.getElem?_take, List.getElem?_take, h.outside i lost combined]
  combined r := by
    rw [List.getElem?_take, List.getElem?_take, h.combined r]
    split
    · rfl
    · rfl

end Tampered

/-- **A difference that leaves the padding alone goes unnoticed.** -/
theorem decrypt_tamper_of_ok {key : Key} {iv : Block} {c : List UInt8} {d : Block} {j : Nat}
    (hj : j < c.length / 16) {p : List UInt8} (h : decrypt key iv c = .ok p)
    (zero : ∀ r : Fin 16, p.length ≤ 16 * j + r.val → d.get r = 0) :
    ∃ p', decrypt key (tamper d j iv c).1 (tamper d j iv c).2 = .ok p' ∧ Tampered j d p p' := by
  obtain ⟨aligned, k, h1, h16, padded⟩ := decrypt_eq_ok_iff_append_run.mp h
  rw [decryptBlocks_eq_plainBlocks] at padded
  have changed := tampered_plainBlocks key iv d hj
  have length := length_plainBlocks key iv c
  rw [padded] at changed length
  simp only [Padding.run, List.length_append, List.length_replicate, blockSize] at length h16
  -- The padding begins in the last block, so the lost block stands in front of it.
  have same := changed.drop_eq (n := p.length) (by omega) zero
  rw [List.drop_left] at same
  have front := changed.take p.length
  rw [List.take_left] at front
  refine ⟨_, decrypt_eq_ok_iff_append_run.mpr
    ⟨aligned_tamper_iff.mpr aligned, k, h1, h16, ?_⟩, front⟩
  rw [decryptBlocks_eq_plainBlocks, ← same, List.take_append_drop]

/-- **Bad padding stays bad when the difference comes to lie in front of the last block.** -/
theorem decrypt_tamper_of_unpadded {key : Key} {iv : Block} {c : List UInt8} {d : Block} {j : Nat}
    (hj : j + 1 < c.length / 16) (h : decrypt key iv c = .error .unpadded) :
    decrypt key (tamper d j iv c).1 (tamper d j iv c).2 = .error .unpadded := by
  obtain ⟨aligned, none⟩ := decrypt_eq_unpadded_iff.mp h
  refine decrypt_eq_unpadded_iff.mpr ⟨aligned_tamper_iff.mpr aligned, fun k h1 h16 found => ?_⟩
  -- A run that is found now stands in the last block, and was there before.
  refine none k h1 h16 ?_
  have changed := tampered_plainBlocks key iv d (Nat.lt_of_succ_lt hj)
  have length := length_plainBlocks key iv c
  rw [blockSize] at h16
  have same := changed.drop_eq (n := 16 * (c.length / 16) - k) (by omega) (by omega)
  have count : (Padding.run k).length = k := List.length_replicate
  rw [decryptBlocks_eq_plainBlocks, List.suffix_iff_eq_drop, changed.length_eq, length, count,
    same] at found
  rwa [decryptBlocks_eq_plainBlocks, List.suffix_iff_eq_drop, length, count]

/-! ## 5. The law -/

/-- **What changing a block of the chain does to the answer of decryption.**  A plaintext stays one
of the same length, as long as the difference is zero where its padding stands; it is combined with
the difference in the block behind the changed one and kept in all others but the lost one.  Only
the last block holds padding, so in front of it the difference is free, and there it does not mend
padding that is bad. -/
theorem decrypt_tamper (key : Key) (iv : Block) (c : List UInt8) (d : Block) (j : Nat)
    (hj : j < c.length / 16) :
    let iv' := (tamper d j iv c).1
    let c' := (tamper d j iv c).2
    (∀ p, decrypt key iv c = .ok p →
      (j + 1 < c.length / 16 → ∀ r : Fin 16, 16 * j + r.val < p.length) ∧
      ((∀ r : Fin 16, p.length ≤ 16 * j + r.val → d.get r = 0) →
        ∃ p', decrypt key iv' c' = .ok p' ∧ Tampered j d p p')) ∧
    (j + 1 < c.length / 16 → decrypt key iv c = .error .unpadded →
      decrypt key iv' c' = .error .unpadded) := by
  intro iv' c'
  refine ⟨fun p h => ⟨fun front r => ?_, decrypt_tamper_of_ok hj h⟩, decrypt_tamper_of_unpadded⟩
  have length := length_encrypt key iv p
  rw [← decrypt_eq_ok_iff.mp h, blockSize] at length
  omega

/-- Four bytes in front of the padding are changed as one likes, from the block before it; and two
blocks that are no padding are none behind another `iv`. -/
theorem decrypt_tamper_last_block :
    let key : Key := Vector.replicate 32 0
    let iv : Block := Vector.replicate 16 0
    let p : List UInt8 := List.replicate 20 65
    let d : Block := Vector.ofFn fun r => if r.val < 4 then 1 else 0
    let c := encrypt key iv p
    let bare := Bytes.join (chain (Aes.encrypt key) iv (List.replicate 2 (Vector.replicate 16 65)))
    (1 < c.length / 16 ∧ decrypt key iv c = .ok p ∧
      ∀ r : Fin 16, p.length ≤ 16 * 1 + r.val → d.get r = 0) ∧
    (∃ p', decrypt key (tamper d 1 iv c).1 (tamper d 1 iv c).2 = .ok p' ∧ p'.length = 20 ∧
      p'[16]? = some 64) ∧
    (0 + 1 < bare.length / 16 ∧ decrypt key iv bare = .error .unpadded) ∧
    decrypt key (tamper d 0 iv bare).1 (tamper d 0 iv bare).2 = .error .unpadded := by
  intro key iv p d c bare
  have two : 1 < c.length / 16 := by rw [length_encrypt]; decide
  have opened : decrypt key iv c = .ok p := decrypt_encrypt key iv p
  have zero : ∀ r : Fin 16, p.length ≤ 16 * 1 + r.val → d.get r = 0 := by decide
  obtain ⟨p', opened', changed⟩ := ((decrypt_tamper key iv c d 1 two).1 p opened).2 zero
  have long : 0 + 1 < bare.length / 16 := by
    rw [Bytes.length_join, length_chain]
    decide
  have refused : decrypt key iv bare = .error .unpadded := by
    refine decrypt_eq_unpadded_iff.mpr ⟨aligned_iff_length.mpr ?_, ?_⟩
    · rw [Bytes.length_join, length_chain]
      decide
    · rw [decryptBlocks_eq, Bytes.chunks_join (by decide), unchain_chain (Aes.decrypt_encrypt key)]
      exact Padding.unpad?_eq_none_iff.mp rfl
  have refused' := (decrypt_tamper key iv bare d 0 (Nat.lt_of_succ_lt long)).2 long refused
  have first : p'[16]? = some 64 := (changed.combined 0).trans (by decide)
  exact ⟨⟨two, opened, zero⟩, ⟨p', opened', changed.length_eq, first⟩, ⟨long, refused⟩, refused'⟩

end Cbc
end PasswordSeal
