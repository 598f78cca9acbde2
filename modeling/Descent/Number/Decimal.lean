import Descent.Number.Rounding

/-!
# Decimal numbers

A decimal is a sign, digits and a power of ten.  Its text has an optional sign, digits with an
optional point among or around them, and an optional exponent.  `Decimal.toBinary64` gives the
nearest double-precision number: digits of any length are rounded once, and neither a value that is
too large nor one that is too small is an error.
-/

namespace Descent

attribute [local instance (high)] instPowNat

/-- The number `± digits · 10 ^ exponent`. -/
structure Decimal where
  negative : Bool
  digits : Nat
  exponent : Int
deriving DecidableEq

namespace Decimal

/-! ## Reading -/

/-- The number that a row of digits stands for. -/
def digitsValue (ds : List Char) : Nat := ds.foldl (fun n d => 10 * n + (d.toNat - '0'.toNat)) 0

/-- Takes an optional sign off, and tells whether it is a minus. -/
def splitSign : List Char → Bool × List Char
  | '+' :: cs => (false, cs)
  | '-' :: cs => (true, cs)
  | cs => (false, cs)

/-- Takes the leading digits off. -/
def splitDigits (cs : List Char) : List Char × List Char :=
  (cs.takeWhile Char.isDigit, cs.dropWhile Char.isDigit)

/-- Takes a point and the digits after it off. -/
def splitFraction : List Char → List Char × List Char
  | '.' :: cs => splitDigits cs
  | cs => ([], cs)

/-- Reads the text after the digits: nothing, or an exponent that has at least one digit. -/
def exponent? : List Char → Option Int
  | [] => some 0
  | c :: cs =>
    let (negative, ds) := splitSign cs
    if (c = 'e' ∨ c = 'E') ∧ ds ≠ [] ∧ ds.all Char.isDigit then
      some (if negative then -(digitsValue ds : Int) else digitsValue ds)
    else
      none

/-- Reads the text of a decimal.  There has to be a digit before the exponent. -/
def ofChars? (cs : List Char) : Option Decimal :=
  let (negative, unsigned) := splitSign cs
  let (whole, tail) := splitDigits unsigned
  let (fraction, tail) := splitFraction tail
  if whole = [] ∧ fraction = [] then
    none
  else
    (exponent? tail).map fun exponent =>
      ⟨negative, digitsValue (whole ++ fraction), exponent - fraction.length⟩

/-! ## Double precision -/

/-- The magnitude nearest to `digits · 10 ^ exponent`.  A power of ten far outside the range of the
format decides on its own, so that no larger one is ever computed. -/
def magnitude (digits : Nat) (exponent : Int) : Nat :=
  if digits = 0 then
    0
  else if 310 < exponent then
    Binary64.infinity
  else if exponent < -(digits.log2 + 400 : Nat) then
    0
  else if 0 ≤ exponent then
    Binary64.nearest (digits * 10 ^ exponent.toNat * 2 ^ Binary64.unitPlaces) 1
  else
    Binary64.nearest (digits * 2 ^ Binary64.unitPlaces) (10 ^ (-exponent).toNat)

theorem magnitude_le_infinity (digits : Nat) (exponent : Int) :
    magnitude digits exponent ≤ Binary64.infinity := by
  unfold magnitude
  split
  · exact Nat.zero_le _
  split
  · exact Nat.le_refl _
  split
  · exact Nat.zero_le _
  split <;> exact Binary64.nearest_le_infinity _ _

/-- The double-precision number nearest to a decimal. -/
def toBinary64 (d : Decimal) : Binary64 where
  negative := d.negative
  magnitude := magnitude d.digits d.exponent
  magnitude_lt := Nat.lt_of_le_of_lt (magnitude_le_infinity _ _) Binary64.infinity_lt

end Decimal

/-- Reads the text of a decimal as the nearest double-precision number. -/
def Binary64.ofChars? (cs : List Char) : Option Binary64 := (Decimal.ofChars? cs).map (·.toBinary64)

end Descent
