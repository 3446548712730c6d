/-
# SHA-1 as a textbook states it

`Sha1.hash` works on bytes: it appends bytes, cuts the result into blocks and changes five words
with each of them.  A textbook hashes a string of bits, of any number.  This module states the
hash in that way, and shares nothing with `Sha1.hash` but the type of bytes.

* A message is the bits of its bytes, the highest bit of each first (`messageBits`).
* It is padded by a one bit, by zero bits and by its length, so that blocks of 512 bits fill it
  (`pad`), and parsed by position: word `t` of block `i` is 32 bits read as a number (`blockWord`).
* The words of the schedule, the variables of the rounds and the hash values are sequences, each
  given by its recurrence (`schedule`, `variablesAfter`, `hashValue`).

`Proofs/Sha1/Agreement.lean` proves that both hashes are one function.
-/
namespace PasswordSeal
namespace Sha1
namespace Textbook

/-! ## 1. Bits and numbers -/

/-- The lowest `w` bits of a number, the highest of them first. -/
def bitsOf : (w n : Nat) → List Bool
  | 0, _ => []
  | w + 1, n => n.testBit w :: bitsOf w n

/-- The number that some bits write, the highest of them first. -/
def valueOf (bits : List Bool) : Nat := bits.foldl (fun n b => 2 * n + b.toNat) 0

/-- The bits are parsed into strings of `w` bits, and number `i` is the one that string `i`
writes. -/
def numberAt (w : Nat) (bits : List Bool) (i : Nat) : Nat :=
  valueOf ((bits.drop (w * i)).take w)

/-- The bits of a message that is made of bytes. -/
def messageBits (message : List UInt8) : List Bool :=
  message.flatMap fun b => bitsOf 8 b.toNat

/-! ## 2. Padding and parsing -/

/-- How many zero bits pad a message of `l` bits. -/
def zeroCount (l : Nat) : Nat := (447 + 512 - l % 512) % 512

/-- They are the fewest that leave 64 bits of a block free. -/
theorem zeroCount_isLeast (l : Nat) :
    (l + 1 + zeroCount l) % 512 = 448 ∧ ∀ k, (l + 1 + k) % 512 = 448 → zeroCount l ≤ k := by
  unfold zeroCount
  refine ⟨?_, fun k h => ?_⟩
  · omega
  · omega

/-- A padded message.  Its length is written in 64 bits, so the textbook asks for fewer than
`2 ^ 64` bits; of a longer message the lowest bits of its length are written. -/
def pad (bits : List Bool) : List Bool :=
  bits ++ [true] ++ List.replicate (zeroCount bits.length) false ++ bitsOf 64 bits.length

/-- Thirty-two bits. -/
abbrev Word := BitVec 32

/-- Word `t` of block `i`, of which each has 512 bits. -/
def blockWord (padded : List Bool) (i t : Nat) : Word :=
  BitVec.ofNat 32 (numberAt 32 ((padded.drop (512 * i)).take 512) t)

/-! ## 3. Functions and constants -/

/-- Each bit of `x` chooses between those of `y` and `z`. -/
def choose (x y z : Word) : Word := (x &&& y) ^^^ (~~~x &&& z)

/-- The sum of three bits, over two elements. -/
def parity (x y z : Word) : Word := x ^^^ y ^^^ z

/-- What two of three bits agree on. -/
def majority (x y z : Word) : Word := (x &&& y) ^^^ (x &&& z) ^^^ (y &&& z)

/-- The function of round `t`. -/
def roundFunction (t : Nat) : Word → Word → Word → Word :=
  match t / 20 with
  | 0 => choose
  | 1 => parity
  | 2 => majority
  | _ => parity

/-- The constant of round `t`. -/
def constant (t : Nat) : Word :=
  match t / 20 with
  | 0 => 0x5A827999
  | 1 => 0x6ED9EBA1
  | 2 => 0x8F1BBCDC
  | _ => 0xCA62C1D6

/-! ## 4. The hash -/

/-- The first `t` words of the schedule that is made from the words of a block. -/
def schedule (m : Nat → Word) : (t : Nat) → List Word
  | 0 => []
  | t + 1 =>
    let w := schedule m t
    let next :=
      if t < 16 then m t
      else
        (w.getD (t - 3) 0 ^^^ w.getD (t - 8) 0 ^^^ w.getD (t - 14) 0 ^^^
          w.getD (t - 16) 0).rotateLeft 1
    w ++ [next]

/-- The variables that the rounds change, and also a hash value. -/
structure Variables where
  a : Word
  b : Word
  c : Word
  d : Word
  e : Word
  deriving DecidableEq, Repr

/-- Round `t`, with its word of the schedule. -/
def step (t : Nat) (w : Word) : Variables → Variables
  | ⟨a, b, c, d, e⟩ =>
    ⟨a.rotateLeft 5 + roundFunction t b c d + e + constant t + w, a, b.rotateLeft 30, c, d⟩

/-- The variables after `t` rounds, from those before the first. -/
def variablesAfter (w : List Word) (v : Variables) : (t : Nat) → Variables
  | 0 => v
  | t + 1 => step t (w.getD t 0) (variablesAfter w v t)

/-- The hash value after `i` blocks. -/
def hashValue (padded : List Bool) : (i : Nat) → Variables
  | 0 => ⟨0x67452301, 0xEFCDAB89, 0x98BADCFE, 0x10325476, 0xC3D2E1F0⟩
  | i + 1 =>
    let h := hashValue padded i
    let v := variablesAfter (schedule (blockWord padded i) 80) h 80
    ⟨v.a + h.a, v.b + h.b, v.c + h.c, v.d + h.d, v.e + h.e⟩

/-- The 160 bits that a message is hashed to. -/
def digest (message : List Bool) : List Bool :=
  let padded := pad message
  let ⟨a, b, c, d, e⟩ := hashValue padded (padded.length / 512)
  [a, b, c, d, e].flatMap fun x => bitsOf 32 x.toNat

/-- The twenty bytes that a message of bytes is hashed to. -/
def hash (message : List UInt8) : List UInt8 :=
  (List.range 20).map fun i => UInt8.ofNat (numberAt 8 (digest (messageBits message)) i)

@[simp] theorem length_hash (message : List UInt8) : (hash message).length = 20 := by
  rw [hash, List.length_map, List.length_range]

end Textbook
end Sha1
end PasswordSeal
