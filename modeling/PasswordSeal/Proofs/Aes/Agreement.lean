/-
# Both ciphers are one function

`Aes.encrypt` keeps a block as sixteen bytes, replaces bytes by a table and makes its round keys
a block at a time.  `Textbook.encrypt` keeps rows and columns, computes in the field, and expands
the key word by word.  `encrypt_eq_textbook` says that they agree on every key and every block.

The bytes are settled by going through all 256 of them: the table against the field and the
affine map (`substitute_eq`), and the doubling of `Aes.double` against multiplication.  The rest is
the same for all bytes, and has two parts.

* **Keys.**  Word `n + 8` of an expanded key depends on words `n` and `n + 7`
  (`getElem_keyWords_add_eight`).  Four such words at once are the step from two round keys to
  the next (`nextRoundKey_joinWords`).
* **Rounds.**  `load` carries each step on blocks to the step on states, so it carries a whole
  run of rounds (`load_round`).
-/
import PasswordSeal.Aes.Cipher
import PasswordSeal.Proofs.Aes.Textbook

namespace PasswordSeal
namespace Aes

open Bytes
open Textbook (State load store blockOf keyWords roundWords changeWord addWords)

/-! ## 1. Bytes -/

/-- **The table is the inverse and the affine map.** -/
theorem substitute_eq : ∀ b, Textbook.substitute b = substitute b := by
  decide +kernel

theorem mul_one : ∀ b, Textbook.mul 1 b = b := by
  decide +kernel

theorem mul_two : ∀ b, Textbook.mul 2 b = double b := by
  decide +kernel

theorem mul_three : ∀ b, Textbook.mul 3 b = double b ^^^ b := by
  decide +kernel

/-- As long as no bit falls out, a power of `x` is a one bit moved to the left. -/
theorem power_two : ∀ n < 8, Textbook.power 2 n = 1 <<< UInt8.ofNat n := by
  decide +kernel

/-! ## 2. Words of the expanded key -/

/-- More words do not change those that are there. -/
theorem getElem_expand_of_le (key : Key) {n m i : Nat} (h : i < 8 + n) (hle : n ≤ m) :
    (Textbook.expand key m)[i] = (Textbook.expand key n)[i] := by
  induction hle with
  | refl => rfl
  | @step m hle ih =>
    have hm : i < 8 + m := Nat.lt_of_lt_of_le h (Nat.add_le_add_left hle 8)
    rw [← ih]
    exact Vector.getElem_push_lt hm

theorem getElem_keyWords_of_lt (key : Key) {i : Nat} (h : i < 8) :
    (keyWords key)[i] = Vector.ofFn fun r : Fin 4 => key[4 * i + r.val] := by
  rw [keyWords, getElem_expand_of_le key (n := 0) h (by omega), Textbook.expand]
  simp

/-- **How a word is made of two earlier ones.** -/
theorem getElem_keyWords_add_eight (key : Key) {n : Nat} (h : n < 52) :
    (keyWords key)[n + 8] =
      (keyWords key)[n] ^^^ changeWord (n + 8) (keyWords key)[n + 7] := by
  have made : (keyWords key)[n + 8] = (Textbook.expand key (n + 1))[n + 8] :=
    getElem_expand_of_le key (by omega) (by omega)
  have first : (keyWords key)[n] = (Textbook.expand key n)[n] :=
    getElem_expand_of_le key (by omega) (by omega)
  have last : (keyWords key)[n + 7] = (Textbook.expand key n)[n + 7] :=
    getElem_expand_of_le key (by omega) (by omega)
  rw [made, first, last]
  simp [Textbook.expand, Vector.getElem_push, Nat.add_comm]

/-! ## 3. Round keys -/

/-- The block of four words. -/
def joinWords (ws : Vector Word 4) : Block := blockOf fun r c => (ws.get c).get r

theorem getElem_joinWords (ws : Vector Word 4) {i : Nat} (hi : i < 16) :
    (joinWords ws)[i] = ws[i / 4][i % 4] := by
  rw [joinWords, blockOf, Vector.getElem_ofFn]
  rfl

theorem word_joinWords (ws : Vector Word 4) (j : Fin 4) : word (joinWords ws) j = ws.get j := by
  refine Vector.ext fun i hi => ?_
  have column : (4 * j.val + i) / 4 = j.val := by omega
  have row : (4 * j.val + i) % 4 = i := by omega
  simp only [word, Vector.getElem_ofFn, getElem_joinWords, column, row]
  rfl

theorem append_eq_joinWords (a b c d : Word) : a ++ b ++ c ++ d = joinWords #v[a, b, c, d] := by
  refine Vector.ext fun i hi => ?_
  rcases (by omega : i / 4 = 0 ∨ i / 4 = 1 ∨ i / 4 = 2 ∨ i / 4 = 3) with h | h | h | h
  · have row : i % 4 = i := by omega
    rw [Vector.getElem_append_left (by omega), Vector.getElem_append_left (by omega),
      Vector.getElem_append_left (by omega)]
    simp [getElem_joinWords, h, row]
  · have row : i % 4 = i - 4 := by omega
    rw [Vector.getElem_append_left (by omega), Vector.getElem_append_left (by omega),
      Vector.getElem_append_right (by omega) (by omega)]
    simp [getElem_joinWords, h, row]
  · have row : i % 4 = i - 8 := by omega
    rw [Vector.getElem_append_left (by omega),
      Vector.getElem_append_right (by omega) (by omega)]
    simp [getElem_joinWords, h, row]
  · have row : i % 4 = i - 12 := by omega
    rw [Vector.getElem_append_right (by omega) (by omega)]
    simp [getElem_joinWords, h, row]

theorem map_substitute (w : Word) : w.map Textbook.substitute = substituteWord w :=
  Vector.map_congr_left fun b _ => substitute_eq b

theorem rotate_eq (w : Word) : Textbook.rotate w = rotateWord w :=
  rfl

/-- What a round key takes from the last word of the one before it is that word as it is changed
every fourth time. -/
theorem changeWord_eq_feedback {n : Nat} (h : n < 13) (w : Word) :
    changeWord (4 * n + 8) w = feedback n w := by
  rcases Nat.mod_two_eq_zero_or_one n with even | odd
  · have constant : (4 * n + 8) / 8 - 1 = n / 2 := by omega
    rw [changeWord, if_pos (by omega), feedback, if_pos even, constant,
      map_substitute, rotate_eq, Textbook.roundConstant, power_two (n / 2) (by omega)]
  · rw [changeWord, if_neg (by omega), if_pos (by omega), feedback, if_neg (by omega),
      map_substitute]

/-- All other words are not changed. -/
theorem changeWord_of_not_dvd {i : Nat} (h : i % 4 ≠ 0) (w : Word) : changeWord i w = w := by
  rw [changeWord, if_neg (by omega), if_neg (by omega)]

theorem roundWords_eq (ws : Vector Word 60) (n : Fin 15) :
    roundWords ws n =
      #v[ws[4 * n.val], ws[4 * n.val + 1], ws[4 * n.val + 2], ws[4 * n.val + 3]] :=
  rfl

/-- **The next round key is the next four words.** -/
theorem nextRoundKey_joinWords {ws : Vector Word 60} {n : Nat} (h : n < 13)
    (made : ∀ m (_ : m < 52), ws[m + 8] = ws[m] ^^^ changeWord (m + 8) ws[m + 7]) :
    nextRoundKey n (joinWords (roundWords ws ⟨n, by omega⟩))
        (joinWords (roundWords ws ⟨n + 1, by omega⟩)) =
      joinWords (roundWords ws ⟨n + 2, by omega⟩) := by
  have w0 := made (4 * n) (by omega)
  have w1 := made (4 * n + 1) (by omega)
  have w2 := made (4 * n + 2) (by omega)
  have w3 := made (4 * n + 3) (by omega)
  rw [changeWord_eq_feedback h] at w0
  rw [changeWord_of_not_dvd (by omega)] at w1 w2 w3
  simp only [nextRoundKey, word_joinWords, roundWords_eq]
  rw [append_eq_joinWords]
  simp only [Nat.mul_add, Nat.mul_one, Nat.reduceMul, Nat.add_right_comm _ 8, w0, w1, w2, w3]
  rfl

/-- The round keys are the words of the expanded key, four at a time. -/
theorem getElem_extendKey (key : Key) {n j : Nat} (hn : n ≤ 13) (h : j < 2 + n) :
    (extendKey key n)[j] = joinWords (roundWords (keyWords key) ⟨j, by omega⟩) := by
  induction n generalizing j with
  | zero =>
    refine Vector.ext fun i hi => ?_
    have place : 4 * (i / 4) + i % 4 = i := Nat.div_add_mod i 4
    have first : i / 4 < 8 := by omega
    have second : 4 + i / 4 < 8 := by omega
    rcases (by omega : j = 0 ∨ j = 1) with rfl | rfl
    · have half : (key.take 16 : Bytes 16)[i] = key[i] :=
        Vector.getElem_take (show i < min 16 32 from hi)
      simpa [extendKey, getElem_joinWords, roundWords, getElem_keyWords_of_lt key first,
        place] using half
    · have half : (key.drop 16 : Bytes 16)[i] = key[16 + i] :=
        Vector.getElem_drop (show i < 32 - 16 from hi)
      simpa [extendKey, getElem_joinWords, roundWords, getElem_keyWords_of_lt key second,
        Nat.mul_add, Nat.add_assoc, place] using half
  | succ n ih =>
    rcases Nat.lt_or_ge j (2 + n) with earlier | last
    · rw [← ih (by omega) earlier]
      exact Vector.getElem_push_lt earlier
    · have hj : j = n + 2 := by omega
      subst hj
      rw [← nextRoundKey_joinWords (show n < 13 by omega)
        (fun m hm => getElem_keyWords_add_eight key hm), ← ih (j := n) (by omega) (by omega),
        ← ih (j := n + 1) (by omega) (by omega)]
      simp [extendKey, Vector.getElem_push, Nat.add_comm]

/-- The schedule of a key is made of the sixty words of the expanded key. -/
theorem ofKey_eq (key : Key) :
    Schedule.ofKey key =
      { initial := joinWords (roundWords (keyWords key) 0)
        middle := ([1, 2, 3, 4, 5, 6, 7, 8, 9, 10, 11, 12, 13].map (roundWords (keyWords key))).map
          joinWords
        final := joinWords (roundWords (keyWords key) 14) } := by
  have all : (extendKey key 13).toList =
      (List.finRange 15).map fun j => joinWords (roundWords (keyWords key) j) := by
    refine List.ext_getElem ?_ ?_
    · simp
    · intro j hj _
      rw [Vector.length_toList] at hj
      rw [Vector.getElem_toList, getElem_extendKey key (Nat.le_refl 13) hj, List.getElem_map,
        List.getElem_finRange]
      rfl
  have at13 {j : Nat} (h : j < 2 + 13) := getElem_extendKey key (Nat.le_refl 13) h
  rw [Schedule.ofKey, at13, at13, all, ← List.map_drop, ← List.map_take, List.map_map]
  rfl

/-! ## 4. Rounds -/

theorem store_load (b : Block) : store (load b) = b := by
  refine Vector.ext fun i hi => ?_
  have place : i % 4 + 4 * (i / 4) = i := by omega
  simp [store, blockOf, load, place]

theorem load_xor_joinWords (b : Block) (ws : Vector Word 4) :
    load (b ^^^ joinWords ws) = addWords ws (load b) := by
  refine Vector.ext fun r hr => Vector.ext fun c hc => ?_
  have column : (r + 4 * c) / 4 = c := by omega
  simp [load, addWords, getElem_joinWords, column, Nat.mod_eq_of_lt hr]

theorem load_substituteBytes (b : Block) :
    load (substituteBytes b) = Textbook.substituteBytes (load b) := by
  refine Vector.ext fun r hr => Vector.ext fun c hc => ?_
  simp [load, Textbook.substituteBytes, substituteBytes, substitute_eq]

theorem load_shiftRows (b : Block) : load (shiftRows b) = Textbook.shiftRows (load b) := by
  refine Vector.ext fun r hr => Vector.ext fun c hc => ?_
  have place : (r + 4 * c + 4 * r) % 16 = r + 4 * ((c + r) % 4) := by omega
  simp [load, Textbook.shiftRows, shiftRows, Nat.mod_eq_of_lt hr, place, Fin.val_add]

/-- The byte some places below another stands in the same column of the state. -/
theorem below_eq_load (b : Block) {r c : Nat} (hr : r < 4) (hc : c < 4) (k : Nat) :
    below b ⟨r + 4 * c, by omega⟩ k = (load b)[(r + k) % 4][c] := by
  have column : (r + 4 * c) / 4 = c := by omega
  have row : (r + 4 * c + k) % 4 = (r + k) % 4 := by omega
  simp only [below, load, State.getElem_of, column, row, Nat.add_comm (4 * c)]

/-- The terms of a mixed byte: its own doubled, the next three times, and the other two. -/
theorem mixByte_eq (a b c d : UInt8) :
    mixByte a b c d = double a ^^^ (double b ^^^ b) ^^^ c ^^^ d := by
  simp only [mixByte, double_xor, UInt8.xor_assoc]

/-- The rows of the matrix are turns of one another. -/
theorem getElem_mixColumns (s : State) {r c : Nat} (hr : r < 4) (hc : c < 4) :
    (Textbook.mixColumns s)[r][c] =
      mixByte s[r % 4][c] s[(r + 1) % 4][c] s[(r + 2) % 4][c] s[(r + 3) % 4][c] := by
  have columns : List.finRange 4 = [0, 1, 2, 3] := rfl
  have terms : (Textbook.mixColumns s)[r][c] =
      Textbook.mul Textbook.mixing[r][0] s[0][c] ^^^ Textbook.mul Textbook.mixing[r][1] s[1][c] ^^^
        Textbook.mul Textbook.mixing[r][2] s[2][c] ^^^
        Textbook.mul Textbook.mixing[r][3] s[3][c] := by
    rw [Textbook.mixColumns, State.getElem_of, columns]
    simp only [List.foldl_cons, List.foldl_nil, UInt8.zero_xor]
    rfl
  rw [terms, mixByte_eq]
  rcases (by omega : r = 0 ∨ r = 1 ∨ r = 2 ∨ r = 3) with rfl | rfl | rfl | rfl
  · change Textbook.mul 2 s[0][c] ^^^ Textbook.mul 3 s[1][c] ^^^ Textbook.mul 1 s[2][c] ^^^
      Textbook.mul 1 s[3][c] = _
    rw [mul_two, mul_three, mul_one, mul_one]
  · change Textbook.mul 1 s[0][c] ^^^ Textbook.mul 2 s[1][c] ^^^ Textbook.mul 3 s[2][c] ^^^
      Textbook.mul 1 s[3][c] =
        double s[1][c] ^^^ (double s[2][c] ^^^ s[2][c]) ^^^ s[3][c] ^^^ s[0][c]
    rw [mul_one, mul_two, mul_three, mul_one]
    ac_rfl
  · change Textbook.mul 1 s[0][c] ^^^ Textbook.mul 1 s[1][c] ^^^ Textbook.mul 2 s[2][c] ^^^
      Textbook.mul 3 s[3][c] =
        double s[2][c] ^^^ (double s[3][c] ^^^ s[3][c]) ^^^ s[0][c] ^^^ s[1][c]
    rw [mul_one, mul_one, mul_two, mul_three]
    ac_rfl
  · change Textbook.mul 3 s[0][c] ^^^ Textbook.mul 1 s[1][c] ^^^ Textbook.mul 1 s[2][c] ^^^
      Textbook.mul 2 s[3][c] =
        double s[3][c] ^^^ (double s[0][c] ^^^ s[0][c]) ^^^ s[1][c] ^^^ s[2][c]
    rw [mul_three, mul_one, mul_one, mul_two]
    ac_rfl

theorem load_mixColumns (b : Block) : load (mixColumns b) = Textbook.mixColumns (load b) := by
  refine Vector.ext fun r hr => Vector.ext fun c hc => ?_
  calc (load (mixColumns b))[r][c]
      = mixByte (below b ⟨r + 4 * c, by omega⟩ 0) (below b ⟨r + 4 * c, by omega⟩ 1)
          (below b ⟨r + 4 * c, by omega⟩ 2) (below b ⟨r + 4 * c, by omega⟩ 3) := by
        simp [load, mixColumns]
    _ = mixByte (load b)[r % 4][c] (load b)[(r + 1) % 4][c] (load b)[(r + 2) % 4][c]
          (load b)[(r + 3) % 4][c] := by
        simp only [below_eq_load b hr hc, Nat.add_zero]
    _ = (Textbook.mixColumns (load b))[r][c] := (getElem_mixColumns (load b) hr hc).symm

/-- **A round on blocks is the round on states.** -/
theorem load_round (b : Block) (ws : Vector Word 4) :
    load (round b (joinWords ws)) = Textbook.round (load b) ws := by
  rw [round, load_xor_joinWords, load_mixColumns, load_shiftRows, load_substituteBytes,
    Textbook.round]

theorem load_finish (b : Block) (ws : Vector Word 4) :
    load (finish b (joinWords ws)) =
      addWords ws (Textbook.shiftRows (Textbook.substituteBytes (load b))) := by
  rw [finish, load_xor_joinWords, load_shiftRows, load_substituteBytes]

/-- **Both ciphers encrypt every block alike under every key.** -/
theorem encrypt_eq_textbook (key : Key) (b : Block) : encrypt key b = Textbook.encrypt key b := by
  rw [← store_load (encrypt key b), encrypt, ofKey_eq]
  simp only [Schedule.encrypt, Textbook.encrypt, List.foldl_map]
  rw [load_finish, ← load_xor_joinWords, ← List.foldl_hom load]
  exact fun s n => (load_round s _).symm

end Aes
end PasswordSeal
