/-
# SHA-1

The hash of a message is five words.  The message is padded to whole blocks of 64 bytes, and
each block in turn changes the words: 80 rounds mix them with a schedule that the block gives,
and the result is added to the words before.

`Sha1.digestFrom` starts at the words that some blocks have left behind (`digestFrom_compress`),
so that a key which fills a block is taken in once and used for many messages.
-/
import PasswordSeal.Bytes.Basic

namespace PasswordSeal
namespace Sha1

/-! ## 1. Words -/

/-- The five words that a hash consists of while it is computed. -/
structure State where
  a : UInt32
  b : UInt32
  c : UInt32
  d : UInt32
  e : UInt32
  deriving DecidableEq, Repr

/-- The words before the first block. -/
def State.initial : State :=
  ⟨0x67452301, 0xEFCDAB89, 0x98BADCFE, 0x10325476, 0xC3D2E1F0⟩

/-- The sums word by word. -/
def State.add (s t : State) : State :=
  ⟨s.a + t.a, s.b + t.b, s.c + t.c, s.d + t.d, s.e + t.e⟩

/-- The twenty bytes of the five words. -/
def State.toBytes (s : State) : Bytes 20 :=
  Bytes.ofWord32 s.a ++ Bytes.ofWord32 s.b ++ Bytes.ofWord32 s.c ++ Bytes.ofWord32 s.d ++
    Bytes.ofWord32 s.e

/-- The bits of a word moved `k` places to the left, those that fall out coming back on the
right, for `k` from 1 to 31. -/
def rotateLeft (x k : UInt32) : UInt32 := x <<< k ||| x >>> (32 - k)

/-! ## 2. One block -/

/-- The sixteen words of a block. -/
def words (block : Bytes 64) : Vector UInt32 16 :=
  Vector.ofFn fun i =>
    Bytes.word32 block[4 * i.val] block[4 * i.val + 1] block[4 * i.val + 2] block[4 * i.val + 3]

/-- The words of a block and the first `n` that follow from them: each is made from four
earlier ones. -/
def extend (block : Bytes 64) : (n : Nat) → Vector UInt32 (16 + n)
  | 0 => words block
  | n + 1 =>
    let ws := extend block n
    ws.push (rotateLeft (ws[n + 13] ^^^ ws[n + 8] ^^^ ws[n + 2] ^^^ ws[n]) 1)

/-- One word for each round. -/
def schedule (block : Bytes 64) : Vector UInt32 80 := extend block 64

/-- How round `t` mixes three of the words: it chooses by the bits of the first, adds them bit
by bit, takes the majority, and adds again, for twenty rounds each. -/
def mix (t : Nat) (x y z : UInt32) : UInt32 :=
  if t < 20 then x &&& y ||| ~~~x &&& z
  else if t < 40 then x ^^^ y ^^^ z
  else if t < 60 then x &&& y ||| x &&& z ||| y &&& z
  else x ^^^ y ^^^ z

/-- The constant that round `t` adds. -/
def roundConstant (t : Nat) : UInt32 :=
  if t < 20 then 0x5A827999
  else if t < 40 then 0x6ED9EBA1
  else if t < 60 then 0x8F1BBCDC
  else 0xCA62C1D6

/-- Round `t`, with its word of the schedule. -/
def round (t : Nat) (w : UInt32) (s : State) : State :=
  ⟨rotateLeft s.a 5 + mix t s.b s.c s.d + s.e + roundConstant t + w, s.a, rotateLeft s.b 30,
    s.c, s.d⟩

/-- The words after one more block. -/
def compress (s : State) (block : Bytes 64) : State :=
  let ws := schedule block
  s.add (Fin.foldl 80 (fun s t => round t ws[t] s) s)

/-! ## 3. A message -/

/-- What follows a message of `n` bytes: a one bit, zero bits up to eight bytes before the end
of a block, and the number of bits of the message. -/
def padding (n : Nat) : List UInt8 :=
  0x80 :: List.replicate ((119 - n % 64) % 64) 0 ++
    (Bytes.ofWord64 (UInt64.ofNat (8 * n))).toList

/-- A padded message fills its blocks. -/
theorem dvd_length_padding (n : Nat) : 64 ∣ n + (padding n).length := by
  simp only [padding, List.cons_append, List.length_cons, List.length_append,
    List.length_replicate, Vector.length_toList]
  omega

/-- The hash of a message, when the `consumed` bytes before it have left the words `s`. -/
def digestFrom (s : State) (consumed : Nat) (message : List UInt8) : Bytes 20 :=
  ((Bytes.chunks 64 (message ++ padding (consumed + message.length))).foldl compress s).toBytes

/-- The hash of a message. -/
def hash (message : List UInt8) : Bytes 20 := digestFrom State.initial 0 message

/-- A block may be taken in before the rest of the message is known. -/
theorem digestFrom_compress (s : State) (consumed : Nat) (block : Bytes 64)
    (message : List UInt8) :
    digestFrom (compress s block) (consumed + 64) message =
      digestFrom s consumed (block.toList ++ message) := by
  have total : consumed + (64 + message.length) = consumed + 64 + message.length :=
    (Nat.add_assoc ..).symm
  simp only [digestFrom, List.length_append, Vector.length_toList, List.append_assoc,
    Bytes.chunks_append (n := 64) (by decide), List.foldl_cons, total]

end Sha1
end PasswordSeal
