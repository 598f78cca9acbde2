import Descent.Number.Shortest

/-!
# Positional notation

A decimal is written with all its digits in their places and never with an exponent.  A point is
written only if a digit other than zero follows it, and a zero stands before a point that would
come first.
-/

namespace Descent

attribute [local instance (high)] instPowNat

namespace Decimal

/-- The places after the point, without the zeros at the end. -/
def fractionDigits (places n : Nat) : List Char :=
  let ds := Nat.toDigits 10 n
  (List.replicate (places - ds.length) '0' ++ ds).reverse.dropWhile (· = '0') |>.reverse

/-- A decimal without its sign in positional notation. -/
def positionalMagnitude (digits : Nat) (exponent : Int) : List Char :=
  if 0 ≤ exponent then
    Nat.toDigits 10 (digits * 10 ^ exponent.toNat)
  else
    let places := (-exponent).toNat
    let whole := Nat.toDigits 10 (digits / 10 ^ places)
    match fractionDigits places (digits % 10 ^ places) with
    | [] => whole
    | fraction => whole ++ '.' :: fraction

/-- A decimal in positional notation. -/
def positional (d : Decimal) : List Char :=
  (if d.negative then ['-'] else []) ++ positionalMagnitude d.digits d.exponent

end Decimal

/-- The text of a finite number: the fewest digits that read back, in positional notation. -/
def Binary64.toChars (x : Binary64) : List Char := x.shortest.positional

end Descent
