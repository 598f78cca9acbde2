import Descent.Number.Decimal

/-!
# The shortest decimal that reads back

Among the decimals that are read as a given double-precision number, one with the fewest digits is
found by going through the powers of ten from the largest down.  If any multiple of a power is read
as the number, so is one of the two multiples next to it.  Of two hits the nearer one is taken, and
the upper one if they are equally near.

A unit is a multiple of `10 ^ (-unitPlaces)`, namely `5 ^ unitPlaces` times that power.  So a finite
magnitude has finitely many digits, which are found at the latest, and the search never comes back
empty.
-/

namespace Descent.Binary64

attribute [local instance (high)] instPowNat

/-- The value of a magnitude in multiples of `10 ^ (-unitPlaces)`. -/
def decimalUnits (k : Nat) : Nat :=
  -- The power stands first, where comparing two values never has to count up to it.
  5 ^ unitPlaces * units k

/-- Whether `n` times `10 ^ (place - unitPlaces)` is read as the magnitude `k`. -/
def readsBack (k place n : Nat) : Bool := Decimal.magnitude n ((place : Int) - unitPlaces) = k

/-- The multiple of `10 ^ (place - unitPlaces)` that stands for the magnitude `k`: the neighbour
that reads back, or the nearer one if both do. -/
def neighbour? (k place : Nat) : Option Nat :=
  let scale := 10 ^ place
  let low := decimalUnits k / scale
  match readsBack k place low, readsBack k place (low + 1) with
  | true, true => some (if 2 * (decimalUnits k % scale) < scale then low else low + 1)
  | true, false => some low
  | false, true => some (low + 1)
  | false, false => none

/-- The first hit on the grids from a power of ten down, with its power. -/
def firstNeighbour (k : Nat) : Nat → Nat × Nat
  | 0 => (decimalUnits k, 0)
  | place + 1 =>
    match neighbour? k (place + 1) with
    | some n => (n, place + 1)
    | none => firstNeighbour k place

/-- A power of ten above the magnitude: `2 ^ 93 < 10 ^ 28`. -/
def topPlace (k : Nat) : Nat := ((decimalUnits k).log2 + 1) * 28 / 93 + 1

/-- The decimal with the fewest digits that is read as the number, and the nearest of those. -/
def shortest (x : Binary64) : Decimal :=
  let (digits, place) := firstNeighbour x.magnitude (topPlace x.magnitude)
  ⟨x.negative, digits, (place : Int) - unitPlaces⟩

end Descent.Binary64
