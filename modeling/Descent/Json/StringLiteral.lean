import Descent.Parser.Literal

/-!
# String literals

A literal stands between double quotes.  Inside it a backslash takes the next character as it is,
whichever it is: there are no other escapes.  A quote that no backslash takes ends the literal.
-/

namespace Descent.Json

open Text

/-! ## Writing -/

/-- A character as it is written inside a literal. -/
def escape (c : Char) : List Char := if c = '"' ∨ c = '\\' then ['\\', c] else [c]

/-- The literal for a content, with a backslash where one is needed and nowhere else. -/
def quote (content : List Char) : List Char := '"' :: (content.flatMap escape ++ ['"'])

/-! ## Reading -/

/-- Reads the text behind an opening quote up to the quote that ends the literal.  Gives the content
and the characters read. -/
def readBody? : List Char → Option (List Char × List Char)
  | [] => none
  | ['\\'] => none
  | '\\' :: c :: cs => (readBody? cs).map fun (content, body) => (c :: content, '\\' :: c :: body)
  | c :: cs =>
    if c = '"' then some ([], [c])
    else (readBody? cs).map fun (content, body) => (c :: content, c :: body)

/-- Reads a literal and gives its content.  Without an opening quote it fails at the cursor, and
without a closing one at the end of the text. -/
def stringLiteral : Parser Id (List Char) := fun c =>
  if c.peek? = some '"' then
    let inside := c.advance 1
    match readBody? inside.rest with
    | some (content, body) => .ok (content, inside.advance (byteLength body))
    | none => .error (.expected "closing quote" (inside.advance (byteLength inside.rest)))
  else
    .error (.expected (Parser.quoted "\"") c)

end Descent.Json
