/-
# The alphabet of Base64

A `Sextet` is six bits.  Each is written as one of 64 symbols: the capital letters, the small
letters, the digits, `+` and `/`, in this order.  The pad byte `=` is not a symbol.

`sextet?_symbol` and `symbol_of_sextet?` say that `Base64.symbol` and `Base64.sextet?` are
inverse to each other, so no sextet has two symbols and no other byte is one.
-/
import PasswordSeal.Bytes.Basic

namespace PasswordSeal
namespace Base64

/-- Six bits, as a number below 64. -/
abbrev Sextet := Fin 64

/-- The last six bits of a number. -/
def Sextet.ofNat (n : Nat) : Sextet := Fin.ofNat 64 n

@[simp] theorem Sextet.val_ofNat (n : Nat) : (Sextet.ofNat n).val = n % 64 := rfl

/-- The symbol of a sextet. -/
def symbol (v : Sextet) : UInt8 :=
  if v.val < 26 then UInt8.ofNat (65 + v.val)
  else if v.val < 52 then UInt8.ofNat (97 + (v.val - 26))
  else if v.val < 62 then UInt8.ofNat (48 + (v.val - 52))
  else if v.val = 62 then 43
  else 47

/-- The sextet of a symbol; none for a byte that is no symbol. -/
def sextet? (b : UInt8) : Option Sextet :=
  let n := b.toNat
  if 65 ≤ n ∧ n ≤ 90 then some (Sextet.ofNat (n - 65))
  else if 97 ≤ n ∧ n ≤ 122 then some (Sextet.ofNat (n - 97 + 26))
  else if 48 ≤ n ∧ n ≤ 57 then some (Sextet.ofNat (n - 48 + 52))
  else if n = 43 then some 62
  else if n = 47 then some 63
  else none

/-- The byte that fills the last group up to four: `=`. -/
def padByte : UInt8 := 61

@[simp] theorem sextet?_symbol (v : Sextet) : sextet? (symbol v) = some v := by
  revert v
  decide

@[simp] theorem sextet?_padByte : sextet? padByte = none := by decide

theorem symbol_of_sextet? {b : UInt8} {v : Sextet} (h : sextet? b = some v) : symbol v = b := by
  have all : ∀ b, (sextet? b).all (symbol · = b) := by decide +kernel
  have here := all b
  rw [h] at here
  exact of_decide_eq_true here

/-- The pad byte is no symbol. -/
theorem symbol_ne_padByte (v : Sextet) : symbol v ≠ padByte := by
  intro h
  have := sextet?_symbol v
  simp [h] at this

end Base64
end PasswordSeal
