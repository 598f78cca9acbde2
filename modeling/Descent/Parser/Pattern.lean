import Descent.Parser.Basic
import Descent.Text.WhiteSpace

/-!
# Runs of characters

A pattern matches the longest run of characters of one class at the cursor.  It never searches
ahead.  Whether the run may be empty is part of the pattern.
-/

namespace Descent

open Text

/-- A set of characters. -/
inductive CharClass where
  /-- The digits from `0` to `9`. -/
  | digit
  /-- The characters with the Unicode property `White_Space`. -/
  | whiteSpace
  /-- The listed characters. -/
  | oneOf (chars : List Char)
  /-- The characters that pass a test. -/
  | satisfying (test : Char → Bool)

/-- Whether a character is in the class. -/
def CharClass.contains : CharClass → Char → Bool
  | digit, c => c.isDigit
  | whiteSpace, c => isWhiteSpace c
  | oneOf chars, c => chars.contains c
  | satisfying test, c => test c

/-- How long a run has to be. -/
inductive Quantifier where
  | zeroOrMore
  | oneOrMore
deriving DecidableEq

/-- The shortest run that the quantifier accepts. -/
def Quantifier.least : Quantifier → Nat
  | zeroOrMore => 0
  | oneOrMore => 1

/-- A run of characters to be matched, with a name for failures. -/
structure Pattern where
  what : String
  accepts : CharClass
  quantifier : Quantifier

namespace Pattern

/-- One or more digits. -/
def digits : Pattern := ⟨"digits", .digit, .oneOrMore⟩

/-- One or more of the characters that numbers are written with.  Whether they form a number is
for the reader of the run to decide. -/
def numeric : Pattern := ⟨"numeric literal", .oneOf "0123456789.eE+-".toList, .oneOrMore⟩

/-- White space, or nothing. -/
def whiteSpace : Pattern := ⟨"whitespace", .whiteSpace, .zeroOrMore⟩

/-- The longest run of accepted characters at the cursor. -/
def matched (q : Pattern) (c : Cursor) : List Char := c.rest.takeWhile q.accepts.contains

end Pattern

namespace Parser

/-- Reads the longest run that the pattern accepts, and fails without reading anything if it is too
short. -/
def pattern (q : Pattern) : Parser Id (List Char) := fun c =>
  let run := q.matched c
  if run.length < q.quantifier.least then
    .error (.expected q.what c)
  else
    .ok (run, c.advance (byteLength run))

/-- Reads white space, or nothing. -/
def whiteSpace : Parser Id (List Char) := pattern .whiteSpace

end Parser

end Descent
