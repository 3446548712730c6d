/-
# Round keys

A key of thirty-two bytes gives fifteen round keys.  The first two are the halves of the key,
and each later one is made from the two before it, word by word: the first word of the older
one is combined with a function of the last word of the newer one, and each further word with
the word made before it.
-/
import PasswordSeal.Block
import PasswordSeal.Aes.Substitution

namespace PasswordSeal
namespace Aes

/-- Four bytes, as a key is made of them. -/
abbrev Word := Bytes 4

/-- Word `j` of a round key. -/
def word (k : Block) (j : Fin 4) : Word := Vector.ofFn fun i => k[4 * j.val + i.val]

/-- Replaces every byte of a word. -/
def substituteWord (w : Word) : Word := w.map substitute

/-- Moves the first byte of a word to its end. -/
def rotateWord (w : Word) : Word := #v[w[1], w[2], w[3], w[0]]

/-- What round key `n + 2` takes from the last word of the one before it.  Every second time
the word is also turned, and a power of `x` is added to its first byte. -/
def feedback (n : Nat) (w : Word) : Word :=
  if n % 2 = 0 then
    substituteWord (rotateWord w) ^^^ #v[1 <<< UInt8.ofNat (n / 2), 0, 0, 0]
  else substituteWord w

/-- Round key `n + 2`, from the two before it. -/
def nextRoundKey (n : Nat) (older newer : Block) : Block :=
  let w0 := word older 0 ^^^ feedback n (word newer 3)
  let w1 := word older 1 ^^^ w0
  let w2 := word older 2 ^^^ w1
  let w3 := word older 3 ^^^ w2
  w0 ++ w1 ++ w2 ++ w3

/-- The two halves of a key and the first `n` round keys after them. -/
def extendKey (key : Key) : (n : Nat) → Vector Block (2 + n)
  | 0 => #v[key.take 16, key.drop 16]
  | n + 1 =>
    let ks := extendKey key n
    ks.push (nextRoundKey n ks[n] ks[n + 1])

/-- The round keys in the order of their use. -/
structure Schedule where
  /-- Combined with the block before the first round. -/
  initial : Block
  /-- One for each round that mixes columns. -/
  middle : List Block
  /-- The key of the last round. -/
  final : Block
  deriving DecidableEq, Repr

/-- The fifteen round keys of a key. -/
def Schedule.ofKey (key : Key) : Schedule :=
  let ks := extendKey key 13
  { initial := ks[0], middle := (ks.toList.drop 1).take 13, final := ks[14] }

/-- Thirteen rounds mix columns. -/
@[simp] theorem Schedule.length_middle_ofKey (key : Key) :
    (Schedule.ofKey key).middle.length = 13 := by
  simp [Schedule.ofKey]

end Aes
end PasswordSeal
