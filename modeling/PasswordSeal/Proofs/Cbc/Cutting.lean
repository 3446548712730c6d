/-
# A ciphertext cut between two blocks

A ciphertext is cut behind its block `j`, in front of the last one.  Both parts are whole blocks,
and nothing in them tells that they were one ciphertext.

* **The front** decrypts to the front of the plaintext, which was never padded.  Its last bytes are
  taken for padding when they look like it, so the cut is noticed just when they do not.
* **The back** was encrypted behind the last block of the front.  With that block for `iv` it is the
  encryption of the back of the plaintext, and decrypts to it, padding and all.

`encrypt_join_append` has both at once: encryption goes on behind the blocks that it has made, and
knows of them nothing but the last.
-/
import PasswordSeal.Proofs.Cbc.Textbook
import PasswordSeal.Proofs.Cbc.Verdict

namespace PasswordSeal

/-! ## 1. Bytes that were never padded -/

/-- **Bytes that end in `v` have padding just when the last `v` of them are all `v`.**  There have
to be as many as could be padding. -/
theorem Padding.unpad?_of_getLast? {bytes : List UInt8} {v : UInt8} (last : bytes.getLast? = some v)
    (long : blockSize ≤ bytes.length) :
    unpad? bytes =
      if 1 ≤ v.toNat ∧ v.toNat ≤ blockSize ∧ ∀ b ∈ bytes.drop (bytes.length - v.toNat), b = v then
        some (bytes.take (bytes.length - v.toNat))
      else none := by
  have split (h16 : v.toNat ≤ blockSize) :
      bytes = bytes.take (bytes.length - v.toNat) ++ run v.toNat ↔
        ∀ b ∈ bytes.drop (bytes.length - v.toNat), b = v := by
    have count : (bytes.drop (bytes.length - v.toNat)).length = v.toNat := by
      rw [List.length_drop]
      omega
    have ending : run v.toNat = List.replicate v.toNat v := by rw [run, UInt8.ofNat_toNat]
    have parts := List.take_append_drop (bytes.length - v.toNat) bytes
    rw [ending]
    constructor
    · intro h
      have same := List.append_cancel_left (parts.trans h)
      exact (List.eq_replicate_iff.mp same).2
    · intro h
      rw [← List.eq_replicate_iff.mpr ⟨count, h⟩, parts]
  rw [unpad?, last]
  refine ite_congr (propext ?_) (fun _ => rfl) (fun _ => rfl)
  exact and_congr_right fun _ => and_congr_right split

namespace Cbc

/-! ## 2. Encryption behind blocks -/

/-- **Encryption goes on behind the blocks that it has made.** -/
theorem encrypt_join_append (key : Key) (iv : Block) (bs : List Block) (q : List UInt8) :
    let front := chain (Aes.encrypt key) iv bs
    encrypt key iv (Bytes.join bs ++ q) =
      Bytes.join front ++ encrypt key (front.getLastD iv) q := by
  rw [encrypt_eq, Padding.pad_join_append, Bytes.chunks_join_append (by decide), chain_append,
    Bytes.join_append, ← encrypt_eq]

/-- A chain decrypts to the blocks that are chained. -/
theorem decryptBlocks_join_chain (key : Key) (iv : Block) (bs : List Block) :
    decryptBlocks key iv (Bytes.join (chain (Aes.encrypt key) iv bs)) = Bytes.join bs := by
  rw [decryptBlocks_eq, Bytes.chunks_join (by decide), unchain_chain (Aes.decrypt_encrypt key)]

/-- The blocks in front of some bytes are theirs by number. -/
theorem blockAt_join_append {bs : List Block} {i : Nat} {b : Block} (h : bs[i]? = some b)
    (l : List UInt8) : blockAt (Bytes.join bs ++ l) i = b := by
  have here : i < bs.length := (List.getElem?_eq_some_iff.mp h).1
  have cut : (Bytes.chunks 16 (Bytes.join bs ++ l))[i]? = some b := by
    rw [Bytes.chunks_join_append (by decide), List.getElem?_append_left here, h]
  rw [chunks_eq_map_blockAt, List.getElem?_map] at cut
  obtain ⟨k, hk, rfl⟩ := Option.map_eq_some_iff.mp cut
  obtain ⟨hi, rfl⟩ := List.getElem?_eq_some_iff.mp hk
  rw [List.getElem_range]

/-! ## 3. The cut -/

section

variable (key : Key) (iv : Block) {p : List UInt8} {j : Nat}

/-- A cut behind block `j` of a ciphertext is a cut behind block `j` of the plaintext: in front of
it stands the chain of the blocks there, and the rest is an encryption of its own, behind the last
block of that chain. -/
theorem exists_encrypt_eq_append (first : 1 ≤ j) (whole : j ≤ p.length / 16) :
    ∃ bs : List Block, Bytes.join bs = p.take (16 * j) ∧
      let front := Bytes.join (chain (Aes.encrypt key) iv bs)
      let c := encrypt key iv p
      front.length = 16 * j ∧ c = front ++ encrypt key (blockAt c (j - 1)) (p.drop (16 * j)) := by
  have length : (p.take (16 * j)).length = 16 * j := by
    rw [List.length_take]
    omega
  have joined : Bytes.join (Bytes.chunks 16 (p.take (16 * j))) = p.take (16 * j) :=
    Bytes.join_chunks (n := 16) _ ⟨j, length⟩
  have count := congrArg List.length joined
  rw [Bytes.length_join, length] at count
  generalize Bytes.chunks 16 (p.take (16 * j)) = bs at joined count
  obtain rfl : bs.length = j := by omega
  have parts := encrypt_join_append key iv bs (p.drop (16 * bs.length))
  rw [joined, List.take_append_drop] at parts
  refine ⟨bs, joined, by rw [Bytes.length_join, length_chain], ?_⟩
  -- The last block of the front is the ciphertext's block of this number.
  have last : (chain (Aes.encrypt key) iv bs)[bs.length - 1]? =
      some ((chain (Aes.encrypt key) iv bs).getLastD iv) := by
    have here : bs.length - 1 < (chain (Aes.encrypt key) iv bs).length := by
      rw [length_chain]
      omega
    rw [List.getLastD_eq_getLast?, List.getLast?_eq_getElem?, length_chain,
      List.getElem?_eq_getElem here, Option.getD_some]
  rw [parts, blockAt_join_append last]

/-- The front of a ciphertext decrypts to the front of the plaintext, with padding where there never
was any. -/
theorem decrypt_take_encrypt (first : 1 ≤ j) (whole : j ≤ p.length / 16) :
    decrypt key iv ((encrypt key iv p).take (16 * j)) =
      match Padding.unpad? (p.take (16 * j)) with
      | some q => .ok q
      | none => .error .unpadded := by
  obtain ⟨bs, joined, length, parts⟩ := exists_encrypt_eq_append key iv first whole
  have aligned : Aligned (Bytes.join (chain (Aes.encrypt key) iv bs)) := by
    rw [aligned_iff_length, length]
    omega
  rw [parts, List.take_left' length, decrypt, if_pos aligned, decryptBlocks_join_chain]
  cases padding : Padding.unpad? (p.take (16 * j)) with
  | none => simp only [joined, padding]
  | some q => simp only [joined, padding]

/-- The back of a ciphertext is the encryption of the back of the plaintext. -/
theorem drop_encrypt (first : 1 ≤ j) (whole : j ≤ p.length / 16) :
    (encrypt key iv p).drop (16 * j) =
      encrypt key (blockAt (encrypt key iv p) (j - 1)) (p.drop (16 * j)) := by
  obtain ⟨bs, -, length, parts⟩ := exists_encrypt_eq_append key iv first whole
  have back := congrArg (List.drop (16 * j)) parts
  rwa [List.drop_left' length] at back

end

/-! ## 4. What the parts decrypt to -/

/-- **A cut between two blocks.**  Let `v` be the byte of the plaintext in front of the cut.  When
it is a number from 1 to 16 and as many bytes there are all `v`, the front of the ciphertext
decrypts to what stands before them, and otherwise it is refused for its padding.  The back always
decrypts to the back of the plaintext, behind the last block of the front. -/
theorem decrypt_cut (key : Key) (iv : Block) (p : List UInt8) (j : Nat) (first : 1 ≤ j)
    (whole : j ≤ p.length / 16) :
    let c := encrypt key iv p
    let front := p.take (16 * j)
    (∃ v, front.getLast? = some v ∧
      decrypt key iv (c.take (16 * j)) =
        if 1 ≤ v.toNat ∧ v.toNat ≤ 16 ∧ ∀ b ∈ front.drop (16 * j - v.toNat), b = v then
          .ok (p.take (16 * j - v.toNat))
        else .error .unpadded) ∧
    decrypt key (blockAt c (j - 1)) (c.drop (16 * j)) = .ok (p.drop (16 * j)) := by
  intro c front
  have length : front.length = 16 * j := by
    rw [List.length_take]
    omega
  have long : blockSize ≤ front.length := by
    rw [length, blockSize]
    omega
  have nonempty : front ≠ [] := List.ne_nil_of_length_pos (by omega)
  obtain ⟨v, last⟩ : ∃ v, front.getLast? = some v := ⟨_, List.getLast?_eq_some_getLast nonempty⟩
  refine ⟨⟨v, last, ?_⟩, ?_⟩
  · rw [decrypt_take_encrypt key iv first whole, Padding.unpad?_of_getLast? last long, blockSize,
      length, List.take_take, Nat.min_eq_left (Nat.sub_le ..)]
    by_cases padded : 1 ≤ v.toNat ∧ v.toNat ≤ 16 ∧ ∀ b ∈ front.drop (16 * j - v.toNat), b = v
    · rw [if_pos padded, if_pos padded]
    · rw [if_neg padded, if_neg padded]
  · rw [drop_encrypt key iv first whole, decrypt_encrypt]

/-- Fifteen letters and a byte of value one, in front of the cut, lose that byte; sixteen letters
are refused; and what stands behind the cut is found again. -/
theorem decrypt_cut_padding_like :
    let key : Key := Vector.replicate 32 0
    let iv : Block := Vector.replicate 16 0
    let p : List UInt8 := List.replicate 15 65 ++ [1, 66]
    let q : List UInt8 := List.replicate 17 65
    (1 ≤ 1 ∧ 1 ≤ p.length / 16 ∧ 1 ≤ q.length / 16) ∧
    decrypt key iv ((encrypt key iv p).take (16 * 1)) = .ok (List.replicate 15 65) ∧
    decrypt key (blockAt (encrypt key iv p) (1 - 1)) ((encrypt key iv p).drop (16 * 1)) =
      .ok [66] ∧
    decrypt key iv ((encrypt key iv q).take (16 * 1)) = .error .unpadded := by
  intro key iv p q
  have long : 1 ≤ p.length / 16 := by decide
  have long' : 1 ≤ q.length / 16 := by decide
  obtain ⟨⟨v, last, front⟩, back⟩ := decrypt_cut key iv p 1 (Nat.le_refl 1) long
  obtain ⟨⟨v', last', front'⟩, -⟩ := decrypt_cut key iv q 1 (Nat.le_refl 1) long'
  have padded : 1 ≤ v.toNat ∧ v.toNat ≤ 16 ∧
      ∀ b ∈ (p.take (16 * 1)).drop (16 * 1 - v.toNat), b = v := by
    obtain rfl : 1 = v := Option.some.inj last
    decide +kernel
  have bare : ¬ (1 ≤ v'.toNat ∧ v'.toNat ≤ 16 ∧
      ∀ b ∈ (q.take (16 * 1)).drop (16 * 1 - v'.toNat), b = v') := by
    obtain rfl : 65 = v' := Option.some.inj last'
    rintro ⟨-, small, -⟩
    exact absurd small (by decide)
  refine ⟨⟨Nat.le_refl 1, long, long'⟩, ?_, back, front'.trans (if_neg bare)⟩
  obtain rfl : 1 = v := Option.some.inj last
  exact front.trans (if_pos padded)

end Cbc
end PasswordSeal
