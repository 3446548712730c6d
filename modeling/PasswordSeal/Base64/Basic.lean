/-
# Base64

Three bytes are four sextets, and each sextet is one symbol.  A last group of one or two bytes
gives two or three symbols, with zero bits after its last byte, and pad bytes fill it up to
four.

* `Base64.encode` writes bytes as text.
* `Base64.decode` reads text, after dropping its blanks, or says what is wrong with it.

**Reading is strict.**  It asks for the padding, and refuses a last symbol whose spare bits are
not zero, so that a text without blanks that can be read is the one that `encode` writes.

**Of several faults the first in the order of `decodeBytes` is reported:** a stray byte at the
end, then the symbols from the front, then the shape of the last group.
-/
import PasswordSeal.Base64.Alphabet
import PasswordSeal.Utf8

namespace PasswordSeal
namespace Base64

/-! ## 1. Bytes and sextets -/

/-- The bits of some bytes, six at a time, with zero bits at the end where they are missing. -/
def sextets : List UInt8 → List Sextet
  | [] => []
  | [a] => [Sextet.ofNat (a.toNat / 4), Sextet.ofNat (a.toNat % 4 * 16)]
  | [a, b] =>
    [Sextet.ofNat (a.toNat / 4), Sextet.ofNat (a.toNat % 4 * 16 + b.toNat / 16),
      Sextet.ofNat (b.toNat % 16 * 4)]
  | a :: b :: c :: rest =>
    Sextet.ofNat (a.toNat / 4) :: Sextet.ofNat (a.toNat % 4 * 16 + b.toNat / 16) ::
      Sextet.ofNat (b.toNat % 16 * 4 + c.toNat / 64) :: Sextet.ofNat (c.toNat % 64) ::
      sextets rest

/-- The whole bytes among the bits of some sextets. -/
def ofSextets : List Sextet → List UInt8
  | v :: w :: x :: y :: rest =>
    UInt8.ofNat (v * 4 + w / 16) :: UInt8.ofNat (w % 16 * 16 + x / 4) ::
      UInt8.ofNat (x % 4 * 64 + y) :: ofSextets rest
  | [v, w, x] => [UInt8.ofNat (v * 4 + w / 16), UInt8.ofNat (w % 16 * 16 + x / 4)]
  | [v, w] => [UInt8.ofNat (v * 4 + w / 16)]
  | _ => []

/-! ## 2. Writing -/

/-- How many pad bytes follow the symbols of `n` bytes. -/
def padCount (n : Nat) : Nat := (3 - n % 3) % 3

/-- The symbols and pad bytes that write some bytes. -/
def encodeBytes (bytes : List UInt8) : List UInt8 :=
  (sextets bytes).map symbol ++ List.replicate (padCount bytes.length) padByte

/-- The characters that write some bytes. -/
def encodeChars (bytes : List UInt8) : List Char := (encodeBytes bytes).map Char.ofUInt8

/-- The text that writes some bytes, in one line. -/
def encode (bytes : List UInt8) : String := String.ofList (encodeChars bytes)

/-! ## 3. What can go wrong -/

/-- Why a text writes no bytes.  Offsets count bytes of the text without its blanks. -/
inductive Fault where
  /-- A byte that is no symbol, or a pad byte where no padding may begin. -/
  | strayByte (offset : Nat) (byte : UInt8)
  /-- One symbol alone in the last group: its six bits are no byte.  `length` is that of the
  text. -/
  | loneSymbol (length : Nat)
  /-- A last symbol with spare bits that are not zero. -/
  | spareBits (offset : Nat) (byte : UInt8)
  /-- A last group that is not filled up to four. -/
  | unfilledGroup
  deriving DecidableEq, Repr

/-- The fault in words. -/
def Fault.message : Fault → String
  | .strayByte offset byte => s!"Invalid symbol {byte.toNat}, offset {offset}."
  | .loneSymbol length => s!"Invalid input length: {length}"
  | .spareBits offset byte => s!"Invalid last symbol {byte.toNat}, offset {offset}."
  | .unfilledGroup => "Invalid padding"

/-! ## 4. Reading bytes -/

/-- A text that is one byte longer than whole groups cannot be read, and when its last byte has
no place in any text, that byte is the fault. -/
def checkEnd (s : List UInt8) : Except Fault Unit :=
  match s.getLast? with
  | none => .ok ()
  | some b =>
    if s.length % 4 = 1 ∧ b ≠ padByte ∧ sextet? b = none then
      .error (.strayByte (s.length - 1) b)
    else .ok ()

/-- The sextets of some symbols that stand `offset` bytes into the text.  Padding is no symbol:
only the last group may hold it. -/
def readSymbols (offset : Nat) : List UInt8 → Except Fault (List Sextet)
  | [] => .ok []
  | b :: rest =>
    match sextet? b with
    | none => .error (.strayByte offset b)
    | some v => (readSymbols (offset + 1) rest).map (v :: ·)

/-- The last group of a text. -/
structure LastGroup where
  /-- The sextets of its symbols. -/
  values : List Sextet
  /-- How many pad bytes follow them. -/
  pads : Nat

/-- Reads the last group, which starts at `start`, from the byte at `i` in it.  Padding stands
after two symbols at the earliest, and nothing but padding stands after it; the pad byte that
breaks either rule is the fault. -/
def readLastGroup (start i : Nat) : List UInt8 → Except Fault LastGroup
  | [] => .ok ⟨[], 0⟩
  | b :: rest =>
    if b = padByte then
      if 2 ≤ i ∧ ∀ c ∈ rest, c = padByte then .ok ⟨[], rest.length + 1⟩
      else .error (.strayByte (start + i) padByte)
    else
      match sextet? b with
      | none => .error (.strayByte (start + i) b)
      | some v =>
        (readLastGroup start (i + 1) rest).map fun g => { g with values := v :: g.values }

/-- The bits of the last symbol that belong to no whole byte. -/
def spareBits : List Sextet → Nat
  | [_, w] => w % 16
  | [_, _, x] => x % 4
  | _ => 0

/-- A last group that starts at `start` has two symbols at least, if it has any; it is filled
up to four, and its last symbol has no spare bit set. -/
def LastGroup.check (start : Nat) (g : LastGroup) : Except Fault Unit :=
  let count := g.values.length
  if count = 1 then .error (.loneSymbol (start + count))
  else if (count + g.pads) % 4 ≠ 0 then .error .unfilledGroup
  else if spareBits g.values ≠ 0 then
    .error (.spareBits (start + count - 1) (symbol (g.values.getLastD (.ofNat 0))))
  else .ok ()

/-- Where the last group of a text of `n` bytes starts; it is not empty unless the text is. -/
def lastGroupStart (n : Nat) : Nat := (n - 1) / 4 * 4

/-- The bytes that a text without blanks writes. -/
def decodeBytes (s : List UInt8) : Except Fault (List UInt8) := do
  checkEnd s
  let start := lastGroupStart s.length
  let values ← readSymbols 0 (s.take start)
  let last ← readLastGroup start 0 (s.drop start)
  last.check start
  return ofSextets (values ++ last.values)

/-! ## 5. Reading text -/

/-- The characters that may stand anywhere in a text and mean nothing: the space, the tab, the
line feed, the form feed and the carriage return. -/
def isBlank (c : Char) : Bool :=
  c = ' ' || c = '\t' || c = '\n' || c = '\x0c' || c = '\r'

/-- The bytes that write blanks; a blank is one byte. -/
def isBlankByte (b : UInt8) : Bool :=
  b = 0x20 || b = 0x09 || b = 0x0A || b = 0x0C || b = 0x0D

/-- The characters of a text that are not blanks.  Its bytes tell whether there are blanks in it
to look for; a text without them is taken as it stands. -/
def significant (text : String) : List Char :=
  if (Utf8.encode text).any isBlankByte then text.toList.filter fun c => !isBlank c
  else text.toList

/-- The bytes that a text writes. -/
def decode (text : String) : Except Fault (List UInt8) :=
  decodeBytes (Utf8.encodeChars (significant text))

end Base64
end PasswordSeal
