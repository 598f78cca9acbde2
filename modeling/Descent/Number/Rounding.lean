import Descent.Number.Binary64

/-!
# Rounding to double precision

A nonnegative quotient, counted in units, is rounded to the nearest magnitude, and a value halfway
between two magnitudes to the even one.  The comparisons are exact.
-/

namespace Descent.Binary64

attribute [local instance (high)] instPowNat

/-- The largest magnitude whose value is at most `t` units. -/
def floorMagnitude (t : Nat) : Nat :=
  let shift := t.log2 - 52
  shift * 2 ^ (52 : Nat) + t >>> shift

/-- The magnitude nearest to `num / den` units, the even one of two that are equally near.  What is
too large becomes the infinity. -/
def nearest (num den : Nat) : Nat :=
  let k := floorMagnitude (num / den)
  let middle := (units k + units (k + 1)) * den
  let rounded :=
    if 2 * num < middle then k
    else if middle < 2 * num then k + 1
    else if k % 2 = 0 then k else k + 1
  min rounded infinity

theorem nearest_le_infinity (num den : Nat) : nearest num den ≤ infinity := Nat.min_le_right _ _

end Descent.Binary64
