import Descent.Json.Value
import Descent.Number.Decimal
import Descent.Parser.Pattern

/-!
# Numbers in texts

A number is first cut out as a run of characters and then read as a whole.  The run of characters
that may occur in a number comes first, since digits alone would stop at a point or an exponent and
leave the rest behind.  A run that is there but is not a number is a failure and is not looked at
again.
-/

namespace Descent.Json

open Descent.Parser

/-- Cuts out a run and reads it as a number, or fails where the run starts. -/
def converted (q : Pattern) (what : String) : Parser Id Binary64 := fun c =>
  match (pattern q).run c with
  | .error failure => .error failure
  | .ok (run, next) =>
    match Binary64.ofChars? run with
    | some x => .ok (x, next)
    | none => .error (.expected what c)

/-- What is expected of a run that turns out not to be a number. -/
def malformedFloat : String := "float"

/-- A run of the characters that numbers are written with, read as a number. -/
def float : Parser Id Binary64 := converted .numeric malformedFloat

/-- A run of digits, read as a number. -/
def integer : Parser Id Binary64 := converted .digits "integer"

/-- A number as a value.  Digits alone are looked for only if there is no run that could be one. -/
def number : Parser Id Value := fun c =>
  match float.run c with
  | .ok (x, next) => .ok (.number x, next)
  | .error failure =>
    if failure.expectation = malformedFloat then .error failure
    else (Value.number <$> integer).run c

end Descent.Json
