import Descent.Json.StringLiteral
import Descent.Json.Value
import Descent.Number.Positional

/-!
# The text of a value

Values are written without white space.  A number that is not finite has no spelling and is written
as `null`.
-/

namespace Descent.Json.Value

/-- The text of a number. -/
def renderNumber (x : Binary64) : List Char := if x.isFinite then x.toChars else "null".toList

mutual

/-- The text of a value. -/
def render : Value → List Char
  | null => "null".toList
  | bool b => (if b then "true" else "false").toList
  | number x => renderNumber x
  | string content => quote content.toList
  | array items => '[' :: (renderItems items ++ [']'])
  | object fields => '{' :: (renderFields fields ++ ['}'])

/-- The texts of values with commas between them. -/
def renderItems : List Value → List Char
  | [] => []
  | [item] => item.render
  | item :: items => item.render ++ ',' :: renderItems items

/-- The texts of fields with commas between them. -/
def renderFields : List (String × Value) → List Char
  | [] => []
  | [(key, value)] => quote key.toList ++ ':' :: value.render
  | (key, value) :: fields =>
    quote key.toList ++ ':' :: (value.render ++ ',' :: renderFields fields)

end

/-- The text of a value as a string. -/
protected def toString (value : Value) : String := String.ofList value.render

instance : ToString Value := ⟨Value.toString⟩

end Descent.Json.Value
