import Descent.Json.Value
import Descent.Text.Bytes

/-!
# Data

The values of parser expressions are of one type, so that expressions of every kind can be combined.
-/

namespace Descent

open Text

/-- A value of a parser expression. -/
inductive Datum where
  | unit
  | text (chars : List Char)
  | count (n : Nat)
  | float (x : Binary64)
  | json (value : Json.Value)
  | absent
  | present (content : Datum)
  | list (items : List Datum)
  | tagged (tag : String) (content : Datum)
deriving Inhabited

namespace Datum

/-- What an optional expression gives. -/
def ofOption : Option Datum → Datum
  | none => absent
  | some content => present content

/-- The length of a text in bytes or of a list in items, and zero for anything else. -/
def size : Datum → Nat
  | text chars => byteLength chars
  | list items => items.length
  | _ => 0

/-- The item at an index of a list, or the unit if there is none.  Anything but a list stays as it
is. -/
def pick (i : Nat) : Datum → Datum
  | list items => items.getD i unit
  | datum => datum

mutual

/-- The texts in a datum one after the other, from inside lists, optional values and tags. -/
def concat : Datum → List Char
  | text chars => chars
  | present content => content.concat
  | list items => concatItems items
  | tagged _ content => content.concat
  | _ => []

/-- The texts in the items of a list one after the other. -/
def concatItems : List Datum → List Char
  | [] => []
  | item :: items => item.concat ++ concatItems items

end

end Datum

end Descent
