/-!
# Double-precision numbers

The numbers of the IEEE 754 format `binary64`, by their bits: a sign, and the exponent and fraction
fields read together as one number, the magnitude.  Magnitudes below `infinity` stand for the finite
numbers in increasing order, `infinity` for the infinity, and those above it for the NaNs.

The value of a finite magnitude is a whole number of units, where a unit is `2 ^ (-1074)`, the
smallest positive number of the format.
-/

namespace Descent

-- Powers are those of the natural numbers alone, whatever is imported besides.
attribute [local instance (high)] instPowNat

/-- A double-precision number. -/
structure Binary64 where
  negative : Bool
  /-- The exponent and fraction fields as one number. -/
  magnitude : Nat
  magnitude_lt : magnitude < 2 ^ (63 : Nat)
deriving DecidableEq

namespace Binary64

/-- The magnitude of the infinities. -/
def infinity : Nat := 2047 * 2 ^ (52 : Nat)

/-- The number with the given 64 bits. -/
def ofBits (bits : Nat) : Binary64 where
  negative := bits / 2 ^ (63 : Nat) % 2 = 1
  magnitude := bits % 2 ^ (63 : Nat)
  magnitude_lt := Nat.mod_lt _ (by decide)

/-- The 64 bits of a number. -/
def toBits (x : Binary64) : Nat := (if x.negative then 2 ^ (63 : Nat) else 0) + x.magnitude

/-- Whether the number is neither infinite nor a NaN. -/
def isFinite (x : Binary64) : Bool := x.magnitude < infinity

/-- Whether the number is a NaN. -/
def isNaN (x : Binary64) : Bool := infinity < x.magnitude

/-- Equality of numbers: a NaN equals nothing, and the two zeros are equal. -/
def equal (x y : Binary64) : Bool :=
  !x.isNaN && !y.isNaN && (x == y || x.magnitude == 0 && y.magnitude == 0)

/-- How many places after the binary point the unit stands: it is `2 ^ (-unitPlaces)`. -/
def unitPlaces : Nat := 1074

/-- The value of a magnitude in units.  The infinity counts as the power of two that would come
next. -/
def units (k : Nat) : Nat :=
  let exponent := k / 2 ^ (52 : Nat)
  let fraction := k % 2 ^ (52 : Nat)
  if exponent = 0 then fraction else (2 ^ (52 : Nat) + fraction) * 2 ^ (exponent - 1)

theorem infinity_lt : infinity < 2 ^ (63 : Nat) := by decide

@[simp] theorem ofBits_toBits (x : Binary64) : ofBits x.toBits = x := by
  obtain ⟨negative, magnitude, hm⟩ := x
  cases negative <;> simp [ofBits, toBits] <;> omega

end Binary64

end Descent
