/-
# UTF-8

Text enters a cipher as UTF-8 and leaves it the same way, but what a cipher gives back need not
be text.

* `Utf8.encode` writes a string as bytes.
* `Utf8.decode` reads bytes as a string, or says what is wrong with the first of them that
  belong to no character: a `Utf8.Fault` holds how many bytes before it are good, and how many
  bytes are bad.

**A bad sequence is as long as it could be.**  The bytes counted are those that some character
starts with, and at least one.  When the input ends before a byte can rule out every character,
nothing is bad yet and the fault has no length: more input could mend it.
-/
namespace PasswordSeal
namespace Utf8

/-! ## 1. Writing -/

/-- The bytes of some characters. -/
def encodeChars (cs : List Char) : List UInt8 := cs.flatMap String.utf8EncodeChar

/-- The bytes of a text. -/
def encode (s : String) : List UInt8 := encodeChars s.toList

@[simp] theorem encodeChars_nil : encodeChars [] = [] := rfl

@[simp] theorem encodeChars_cons (c : Char) (cs : List Char) :
    encodeChars (c :: cs) = String.utf8EncodeChar c ++ encodeChars cs := rfl

@[simp] theorem encodeChars_append (cs ds : List Char) :
    encodeChars (cs ++ ds) = encodeChars cs ++ encodeChars ds := List.flatMap_append

/-! ## 2. What can go wrong -/

/-- Where bytes stop being text. -/
structure Fault where
  /-- How many bytes from the front are whole characters. -/
  validUpTo : Nat
  /-- How many bytes after those are bad; none when the input ends inside a character. -/
  errorLength : Option Nat
  deriving DecidableEq, Repr

/-- The fault in words. -/
def Fault.message (f : Fault) : String :=
  match f.errorLength with
  | some n => s!"invalid utf-8 sequence of {n} bytes from index {f.validUpTo}"
  | none => s!"incomplete utf-8 byte sequence from index {f.validUpTo}"

/-! ## 3. One character -/

/-- The bytes from `low` to `high`, both included. -/
structure ByteRange where
  low : UInt8
  high : UInt8
  deriving DecidableEq, Repr

/-- A byte lies in a range. -/
def ByteRange.contains (r : ByteRange) (b : UInt8) : Bool := r.low ≤ b && b ≤ r.high

/-- The bytes that continue a character. -/
def continuation : ByteRange := ⟨0x80, 0xBF⟩

/-- What the first byte of a character settles: the bits it gives to the character, and the
ranges of the bytes that have to follow. -/
structure Lead where
  bits : Nat
  following : List ByteRange
  deriving DecidableEq, Repr

/-- The first bytes of characters.  The byte after `E0` or `F0` is kept high, so that no
character has two spellings; the byte after `ED` or `F4` is kept low, so that surrogates and
numbers past the last character have none. -/
def lead? (b : UInt8) : Option Lead :=
  if b < 0x80 then some ⟨b.toNat, []⟩
  else if b < 0xC2 then none
  else if b < 0xE0 then some ⟨b.toNat - 0xC0, [continuation]⟩
  else if b = 0xE0 then some ⟨0, [⟨0xA0, 0xBF⟩, continuation]⟩
  else if b = 0xED then some ⟨0xD, [⟨0x80, 0x9F⟩, continuation]⟩
  else if b < 0xF0 then some ⟨b.toNat - 0xE0, [continuation, continuation]⟩
  else if b = 0xF0 then some ⟨0, [⟨0x90, 0xBF⟩, continuation, continuation]⟩
  else if b < 0xF4 then some ⟨b.toNat - 0xF0, [continuation, continuation, continuation]⟩
  else if b = 0xF4 then some ⟨4, [⟨0x80, 0x8F⟩, continuation, continuation]⟩
  else none

/-- What some bytes start with. -/
inductive Reading where
  /-- A whole character, and the bytes after it. -/
  | character (c : Char) (rest : List UInt8)
  /-- The first `length` bytes are bad: with the byte after them, or when they are one byte by
  themselves, no character starts. -/
  | invalid (length : Nat)
  /-- A character that goes on past the last byte. -/
  | incomplete

/-- Reads the bytes that follow a first byte: `bits` are those of the character so far, and
`seen` is the number of bytes that gave them. -/
def follow (bits seen : Nat) : List ByteRange → List UInt8 → Reading
  | [], rest => .character (Char.ofNat bits) rest
  | _ :: _, [] => .incomplete
  | r :: rs, b :: rest =>
    if r.contains b then follow (bits * 64 + b.toNat % 64) (seen + 1) rs rest
    else .invalid seen

/-- Reads the character that starts with `b`. -/
def read (b : UInt8) (rest : List UInt8) : Reading :=
  match lead? b with
  | none => .invalid 1
  | some l => follow l.bits 1 l.following rest

theorem length_le_of_follow {bits seen : Nat} {rs : List ByteRange} {bytes rest : List UInt8}
    {c : Char} (h : follow bits seen rs bytes = .character c rest) :
    rest.length ≤ bytes.length := by
  induction rs generalizing bits seen bytes with
  | nil =>
    obtain ⟨-, rfl⟩ := Reading.character.inj h
    exact Nat.le_refl _
  | cons r rs ih =>
    cases bytes with
    | nil => cases h
    | cons b bytes =>
      rw [follow] at h
      split at h
      · exact Nat.le_succ_of_le (ih h)
      · cases h

/-- A character takes at least the byte it starts with. -/
theorem length_le_of_read {b : UInt8} {bytes rest : List UInt8} {c : Char}
    (h : read b bytes = .character c rest) : rest.length ≤ bytes.length := by
  unfold read at h
  split at h
  · simp at h
  · exact length_le_of_follow h

/-! ## 4. Reading -/

/-- The characters of some bytes that stand `offset` bytes into the input. -/
def decodeFrom (offset : Nat) : List UInt8 → Except Fault (List Char)
  | [] => .ok []
  | b :: bytes =>
    match h : read b bytes with
    | .character c rest =>
      have := length_le_of_read h
      (decodeFrom (offset + c.utf8Size) rest).map (c :: ·)
    | .invalid n => .error ⟨offset, some n⟩
    | .incomplete => .error ⟨offset, none⟩
termination_by bytes => bytes.length

/-- The text that some bytes write. -/
def decode (bytes : List UInt8) : Except Fault String :=
  (decodeFrom 0 bytes).map String.ofList

end Utf8
end PasswordSeal
