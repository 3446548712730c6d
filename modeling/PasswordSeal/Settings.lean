/-
# Settings

How many iterations derive the key of a message, and in which layout its text is written.  The
count is kept between its bounds when it is set, and the type holds that it is, so a key can be
derived under any settings.
-/
import PasswordSeal.Base64.Layout

namespace PasswordSeal

/-- The fewest iterations that settings may ask for. -/
def minIterations : Nat := 1

/-- The most iterations that settings may ask for. -/
def maxIterations : Nat := 5000000

/-- The iterations that derive a key unless settings say otherwise. -/
def standardIterations : Nat := 100

/-- How messages are sealed. -/
structure Settings where
  iterations : Nat := standardIterations
  layout : Base64.Layout := .singleLine
  min_le : minIterations ≤ iterations := by decide
  le_max : iterations ≤ maxIterations := by decide
  deriving DecidableEq, Repr

namespace Settings

/-- The settings of messages that none are given for. -/
def standard : Settings := {}

/-- A count brought between the bounds. -/
def clamp (n : Nat) : Nat := max minIterations (min n maxIterations)

/-- The settings with another count, brought between the bounds. -/
def withIterations (s : Settings) (n : Nat) : Settings :=
  { s with
    iterations := clamp n
    min_le := Nat.le_max_left ..
    le_max := Nat.max_le.mpr ⟨by decide, Nat.min_le_right ..⟩ }

/-- The settings with another layout. -/
def withLayout (s : Settings) (layout : Base64.Layout) : Settings := { s with layout }

end Settings
end PasswordSeal
