import Descent.Json.Number
import Descent.Json.StringLiteral
import Descent.Parser.Literal
import Descent.Parser.Many
import Descent.Parser.Recursion

/-!
# The grammar

Inside arrays and objects the comma after an element is optional, so that `[1 2]` and `[1,2,]` are
arrays.  White space is read around an element and not on its own, so that `[ ]` is no array while
`[]` is one.
-/

namespace Descent.Json

open Descent.Parser

/-- A string literal. -/
def string : Parser Id Value := (fun content => .string (String.ofList content)) <$> stringLiteral

/-- One of the words `true` and `false`. -/
def boolean : Parser Id Value :=
  (fun word => .bool (word == "true".toList)) <$> any [literal "true", literal "false"]

/-- The word `null`. -/
def null : Parser Id Value := (fun _ => .null) <$> literal "null"

/-- A value without parts. -/
def primitive : Parser Id Value := any [number, boolean, string, null]

/-! ## Containers

The rules for containers are functions of the rule for the values in them. -/

/-- A comma, or nothing. -/
def optionalComma : Parser Id (Option (List Char)) := optional (literal ",")

/-- An element of an array: a value, with white space around it and an optional comma. -/
def element (value : Parser Id Value) : Parser Id Value := do
  let _ ← whiteSpace
  let item ← value
  let _ ← whiteSpace
  let _ ← optionalComma
  pure item

/-- Elements between brackets. -/
def arrayOf (value : Parser Id Value) : Parser Id Value := do
  let _ ← literal "["
  let items ← many (element value)
  let _ ← literal "]"
  pure (.array items)

/-- A field of an object: a key, a colon and a value, with white space around each and an optional
comma. -/
def field (value : Parser Id Value) : Parser Id (String × Value) := do
  let _ ← whiteSpace
  let key ← stringLiteral
  let _ ← whiteSpace
  let _ ← literal ":"
  let _ ← whiteSpace
  let item ← value
  let _ ← whiteSpace
  let _ ← optionalComma
  pure (String.ofList key, item)

/-- Fields between braces.  A key that comes again keeps its first place and takes the last
value. -/
def objectOf (value : Parser Id Value) : Parser Id Value := do
  let _ ← literal "\x7b"
  let fields ← many (field value)
  let _ ← literal "\x7d"
  pure (.object (Fields.ofPairs fields))

/-- A value, with the given rule for the values inside it. -/
def valueOf (value : Parser Id Value) : Parser Id Value :=
  any [objectOf value, arrayOf value, primitive]

/-- Any value. -/
def value : Parser Id Value := recursive valueOf

/-- An array. -/
def array : Parser Id Value := arrayOf value

/-- An object. -/
def object : Parser Id Value := objectOf value

/-! ## The rules by name -/

/-- The rules of the grammar that give values. -/
inductive Rule where
  | number
  | string
  | boolean
  | null
  | primitive
  | array
  | object
  | value
deriving DecidableEq

/-- The parser of a rule. -/
def Rule.parser : Rule → Parser Id Value
  | number => Json.number
  | string => Json.string
  | boolean => Json.boolean
  | null => Json.null
  | primitive => Json.primitive
  | array => Json.array
  | object => Json.object
  | value => Json.value

end Descent.Json
