import Descent.Json.Fields
import Descent.Number.Binary64

/-!
# JSON values

The values that the grammar produces.  Objects keep their keys in the order in which they came
first.
-/

namespace Descent.Json

/-- A JSON value. -/
inductive Value where
  | null
  | bool (b : Bool)
  | number (x : Binary64)
  | string (content : String)
  | array (items : List Value)
  | object (fields : List (String × Value))
deriving Inhabited

namespace Value

/-- Whether the value is null. -/
def isNull : Value → Bool
  | null => true
  | _ => false

/-- The truth value. -/
def bool? : Value → Option Bool
  | bool b => some b
  | _ => none

/-- The number. -/
def number? : Value → Option Binary64
  | number x => some x
  | _ => none

/-- The content of the string. -/
def string? : Value → Option String
  | string content => some content
  | _ => none

/-- The items of the array. -/
def array? : Value → Option (List Value)
  | array items => some items
  | _ => none

/-- The fields of the object. -/
def object? : Value → Option (Fields Value)
  | object fields => some fields
  | _ => none

/-- The value of a key of the object. -/
def get? (value : Value) (key : String) : Option Value :=
  value.object?.bind (·.find? key)

/-! ## Equality

Numbers are compared as numbers, so that a value with a NaN in it does not even equal itself.  The
order of the keys does not count. -/

mutual

/-- Whether two values are equal. -/
def equal : Value → Value → Bool
  | null, null => true
  | bool a, bool b => a == b
  | number x, number y => x.equal y
  | string s, string t => s == t
  | array items, array others => equalItems items others
  | object fields, object others =>
    fields.length == others.length && equalFields fields others
  | _, _ => false

/-- Whether two lists of values are equal item by item. -/
def equalItems : List Value → List Value → Bool
  | [], [] => true
  | item :: items, other :: others => item.equal other && equalItems items others
  | _, _ => false

/-- Whether each key of the first fields has an equal value in the second ones. -/
def equalFields : List (String × Value) → List (String × Value) → Bool
  | [], _ => true
  | (key, value) :: fields, others =>
    (match Fields.find? others key with
      | some other => value.equal other
      | none => false) && equalFields fields others

end

end Value

end Descent.Json
