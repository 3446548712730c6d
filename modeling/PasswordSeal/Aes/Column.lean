/-
# Mixing of a column

Four bytes of a block are mixed by a matrix over the field of 256 elements.  Its rows are turns
of one another, so it is enough to say how the first byte comes out of the four, in their order
from that byte on.

**Mixing four times changes nothing.**  Mixing twice adds to each byte four times the sum of
itself and the byte opposite to it (`mixByte_mixByte`), and that sum stays what it was.  So
mixing three times is the reverse (`unmixByte_mixByte`, `mixByte_unmixByte`).
-/
import PasswordSeal.Bytes.Basic

namespace PasswordSeal
namespace Aes

open Bytes

/-! ## 1. Bytes as polynomials over two elements -/

/-- Multiplication by `x`, where a byte is a polynomial of degree below eight and the products
are reduced by `x⁸ + x⁴ + x³ + x + 1`. -/
def double (b : UInt8) : UInt8 := if b < 0x80 then b <<< 1 else b <<< 1 ^^^ 0x1B

/-! ## 2. Mixing -/

/-- The mixed byte of a column: its own byte twice, three times the next, and the other two. -/
def mixByte (a b c d : UInt8) : UInt8 := double (a ^^^ b) ^^^ (b ^^^ c ^^^ d)

/-- The byte of a column before it was mixed: fourteen times its own byte, eleven times the
next, then thirteen and nine times the other two.  It is what mixing three times gives. -/
def unmixByte (a b c d : UInt8) : UInt8 :=
  mixByte a b c d ^^^ double (double (double (a ^^^ b ^^^ c ^^^ d) ^^^ (a ^^^ c)))

/-! ## 3. The laws of mixing -/

/-- Multiplication by `x` distributes over sums: a sum has the top bit where just one of its
terms has it. -/
theorem double_xor (a b : UInt8) : double (a ^^^ b) = double a ^^^ double b := by
  have top : ∀ c : UInt8, c < 0x80 ∧ c >>> 7 = 0 ∨ ¬c < 0x80 ∧ c >>> 7 = 1 := by decide +kernel
  have sum : (a ^^^ b) >>> 7 = a >>> 7 ^^^ b >>> 7 := UInt8.shiftRight_xor
  unfold double
  rcases top a with ⟨ha, ta⟩ | ⟨ha, ta⟩ <;> rcases top b with ⟨hb, tb⟩ | ⟨hb, tb⟩ <;>
    rcases top (a ^^^ b) with ⟨hc, tc⟩ | ⟨hc, tc⟩ <;> rw [ta, tb, tc] at sum <;>
    simp [ha, hb, hc, UInt8.shiftLeft_xor, UInt8.xor_assoc, UInt8.xor_comm,
      byte_xor_left_comm] at sum ⊢

theorem mixByte_xor (a b c d p q r s : UInt8) :
    mixByte (a ^^^ p) (b ^^^ q) (c ^^^ r) (d ^^^ s) = mixByte a b c d ^^^ mixByte p q r s := by
  simp [mixByte, double_xor, UInt8.xor_assoc, UInt8.xor_comm, byte_xor_left_comm]

theorem mixByte_xor_mixByte (a b c d : UInt8) :
    mixByte a b c d ^^^ mixByte c d a b = double (a ^^^ b ^^^ c ^^^ d) ^^^ (a ^^^ c) := by
  simp only [mixByte, double_xor, UInt8.xor_assoc, UInt8.xor_comm, byte_xor_left_comm,
    byte_xor_self_left]

theorem sum_mixByte (a b c d : UInt8) :
    mixByte a b c d ^^^ mixByte b c d a ^^^ mixByte c d a b ^^^ mixByte d a b c =
      a ^^^ b ^^^ c ^^^ d := by
  simp only [mixByte, double_xor, UInt8.xor_assoc, UInt8.xor_comm, byte_xor_left_comm,
    byte_xor_self_left, UInt8.xor_self, UInt8.xor_zero]

/-- Mixing twice adds four times a byte and the one opposite to it. -/
theorem mixByte_mixByte (a b c d : UInt8) :
    mixByte (mixByte a b c d) (mixByte b c d a) (mixByte c d a b) (mixByte d a b c) =
      a ^^^ double (double (a ^^^ c)) := by
  simp only [mixByte, double_xor, UInt8.xor_assoc, UInt8.xor_comm, byte_xor_left_comm,
    byte_xor_self_left, UInt8.xor_self, UInt8.zero_xor]

theorem unmixByte_mixByte (a b c d : UInt8) :
    unmixByte (mixByte a b c d) (mixByte b c d a) (mixByte c d a b) (mixByte d a b c) = a := by
  rw [unmixByte, mixByte_mixByte, sum_mixByte, mixByte_xor_mixByte, byte_xor_self_left,
    UInt8.xor_assoc, UInt8.xor_self, UInt8.xor_zero]

theorem mixByte_unmixByte (a b c d : UInt8) :
    mixByte (unmixByte a b c d) (unmixByte b c d a) (unmixByte c d a b) (unmixByte d a b c) =
      a := by
  have none : double 0 = 0 := rfl
  simp only [unmixByte, mixByte_xor, mixByte_mixByte]
  simp only [mixByte, double_xor, UInt8.xor_assoc, UInt8.xor_comm, byte_xor_left_comm,
    byte_xor_self_left, UInt8.xor_self, UInt8.xor_zero, none]

end Aes
end PasswordSeal
