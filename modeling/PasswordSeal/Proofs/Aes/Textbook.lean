/-
# The cipher as a textbook states it

`Aes.encrypt` replaces bytes by a table, makes its round keys a block at a time and mixes a
column with one multiplication.  This module states the same cipher from its mathematics, and
shares nothing with it but the types of bytes, blocks and keys.

* Bytes are elements of the field of 256 elements, multiplied as polynomials over two elements
  and reduced by `x⁸ + x⁴ + x³ + x + 1` (`mul`).
* A byte is replaced by its inverse in that field, and then by an affine map of the bits
  (`substitute`).
* The state is a square of bytes with rows and columns, and columns are mixed by a matrix.
* A key of eight words is expanded to sixty, one word after another (`keyWords`).

`Proofs/Aes/Agreement.lean` proves that both ciphers are one function.
-/
import PasswordSeal.Block

namespace PasswordSeal
namespace Aes
namespace Textbook

/-! ## 1. The field

A polynomial over two elements is the number whose bits are its coefficients, and the sum of two
polynomials is their exclusive or. -/

/-- The coefficient of `xⁱ`. -/
def coefficient (p i : Nat) : Nat := p >>> i % 2

/-- The product of a polynomial with the term of `b` of degree `i`. -/
def timesTerm (a b i : Nat) : Nat := a <<< i * coefficient b i

/-- The product of two polynomials, of which `b` has degree below eight. -/
def product (a b : Nat) : Nat :=
  timesTerm a b 0 ^^^ timesTerm a b 1 ^^^ timesTerm a b 2 ^^^ timesTerm a b 3 ^^^
    timesTerm a b 4 ^^^ timesTerm a b 5 ^^^ timesTerm a b 6 ^^^ timesTerm a b 7

/-- Takes the term of degree `i + 8` away with a multiple of `x⁸ + x⁴ + x³ + x + 1`. -/
def cancelTerm (p i : Nat) : Nat := p ^^^ 0x11B <<< i * coefficient p (i + 8)

/-- What is left of a polynomial of degree below fifteen when it is divided by
`x⁸ + x⁴ + x³ + x + 1`: a polynomial of degree below eight. -/
def reduce (p : Nat) : Nat :=
  let p := cancelTerm (cancelTerm (cancelTerm p 6) 5) 4
  cancelTerm (cancelTerm (cancelTerm (cancelTerm p 3) 2) 1) 0

/-- Multiplication in the field of 256 elements. -/
def times (a b : Nat) : Nat := reduce (product a b)

/-- Multiplication of bytes as elements of the field. -/
def mul (a b : UInt8) : UInt8 := UInt8.ofNat (times a.toNat b.toNat)

/-- The product of `n` copies of a byte. -/
def power (b : UInt8) : (n : Nat) → UInt8
  | 0 => 1
  | n + 1 => mul b (power b n)

/-- The inverse of an element, and zero for zero.  The nonzero elements are a group of 255, so
the inverse is the power 254: the product of the powers 2, 4, 8 and so on up to 128. -/
def inverse (b : Nat) : Nat :=
  let b2 := times b b
  let b4 := times b2 b2
  let b8 := times b4 b4
  let b16 := times b8 b8
  let b32 := times b16 b16
  let b64 := times b32 b32
  let b128 := times b64 b64
  times b2 (times b4 (times b8 (times b16 (times b32 (times b64 b128)))))

/-- `inverse` is the inverse. -/
theorem times_inverse : ∀ b : Fin 256, b ≠ 0 → times b (inverse b) = 1 := by
  decide +kernel

/-! ## 2. The substitution of bytes -/

/-- Bit `i` of a byte with four of the bits after it, counted around, and with a bit of a
constant: their sum over two elements. -/
def affineBit (b i : Nat) : Nat :=
  (coefficient b i + coefficient b ((i + 4) % 8) + coefficient b ((i + 5) % 8) +
    coefficient b ((i + 6) % 8) + coefficient b ((i + 7) % 8) + coefficient 0x63 i) % 2

/-- The affine map of the bits of a byte. -/
def affine (b : Nat) : Nat :=
  affineBit b 0 + 2 * affineBit b 1 + 4 * affineBit b 2 + 8 * affineBit b 3 +
    16 * affineBit b 4 + 32 * affineBit b 5 + 64 * affineBit b 6 + 128 * affineBit b 7

/-- Replaces a byte. -/
def substitute (b : UInt8) : UInt8 := UInt8.ofNat (affine (inverse b.toNat))

/-! ## 3. The expansion of a key -/

/-- Four bytes. -/
abbrev Word := Bytes 4

/-- The power `n` of `x`, alone in the first byte of a word. -/
def roundConstant (n : Nat) : Word := #v[power 2 n, 0, 0, 0]

/-- A word turned by one byte to the left. -/
def rotate (w : Word) : Word := Vector.ofFn fun r => w[(r.val + 1) % 4]

/-- What becomes of word `i - 1` before it is combined into word `i`.  Every eighth time it is
turned by a byte, its bytes are replaced and a constant is added; half way between, its bytes are
only replaced. -/
def changeWord (i : Nat) (w : Word) : Word :=
  if i % 8 = 0 then
    (rotate w).map substitute ^^^ roundConstant (i / 8 - 1)
  else if i % 8 = 4 then w.map substitute
  else w

/-- The eight words of a key, and `n` more.  Each is made from the one before it and the one
eight places before it. -/
def expand (key : Key) : (n : Nat) → Vector Word (8 + n)
  | 0 => Vector.ofFn fun i => Vector.ofFn fun r => key[4 * i.val + r.val]
  | n + 1 =>
    let ws := expand key n
    ws.push (ws[n] ^^^ changeWord (n + 8) ws[n + 7])

/-- The sixty words of the expanded key. -/
def keyWords (key : Key) : Vector Word 60 := expand key 52

/-! ## 4. Rounds -/

/-- The state of the cipher: four rows of four bytes. -/
abbrev State := Vector (Bytes 4) 4

/-- The state with given bytes, by row and column. -/
def State.of (f : Fin 4 → Fin 4 → UInt8) : State :=
  Vector.ofFn fun r => Vector.ofFn fun c => f r c

@[simp] theorem State.getElem_of (f : Fin 4 → Fin 4 → UInt8) (r c : Nat) (hr : r < 4)
    (hc : c < 4) : (State.of f)[r][c] = f ⟨r, hr⟩ ⟨c, hc⟩ := by
  simp [State.of]

/-- A block goes into the state column by column. -/
def load (b : Block) : State := .of fun r c => b[r.val + 4 * c.val]

/-- The block with given bytes, by row and column of the state. -/
def blockOf (f : Fin 4 → Fin 4 → UInt8) : Block :=
  Vector.ofFn fun i => f ⟨i.val % 4, Nat.mod_lt _ (by decide)⟩ ⟨i.val / 4, by omega⟩

/-- The block that a state holds. -/
def store (s : State) : Block := blockOf fun r c => s[r][c]

/-- Replaces every byte. -/
def substituteBytes (s : State) : State := .of fun r c => substitute s[r][c]

/-- Turns row `r` by `r` places to the left. -/
def shiftRows (s : State) : State := .of fun r c => s[r][c + r]

/-- The matrix that columns are multiplied by. -/
def mixing : State := #v[#v[2, 3, 1, 1], #v[1, 2, 3, 1], #v[1, 1, 2, 3], #v[3, 1, 1, 2]]

/-- Multiplies every column by the matrix. -/
def mixColumns (s : State) : State := .of fun r c =>
  (List.finRange 4).foldl (fun sum k => sum ^^^ mul mixing[r][k] s[k][c]) 0

/-- Combines the columns with four words. -/
def addWords (ws : Vector Word 4) (s : State) : State := .of fun r c => s[r][c] ^^^ ws[c][r]

/-- The four words of round key `n`, of which there are fifteen. -/
def roundWords (ws : Vector Word 60) (n : Fin 15) : Vector Word 4 :=
  Vector.ofFn fun c => ws[4 * n.val + c.val]

/-- A round that mixes columns, with its key. -/
def round (s : State) (ws : Vector Word 4) : State :=
  addWords ws (mixColumns (shiftRows (substituteBytes s)))

/-- Encrypts a block: round key 0, thirteen rounds that mix columns, and a last one that does
not. -/
def encrypt (key : Key) (b : Block) : Block :=
  let words := roundWords (keyWords key)
  let middle := [1, 2, 3, 4, 5, 6, 7, 8, 9, 10, 11, 12, 13]
  let s := (middle.map words).foldl round (addWords (words 0) (load b))
  store (addWords (words 14) (shiftRows (substituteBytes s)))

end Textbook
end Aes
end PasswordSeal
