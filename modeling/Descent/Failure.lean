import Descent.Cursor.Context

/-!
# Failures

A parser fails because the text does not continue with what it needs, or because none of several
alternatives matched.  Either way the failure keeps the cursor at which that was found out.
-/

namespace Descent

/-- Why and where a parser failed. -/
inductive Failure where
  /-- The text at the cursor is not what was expected there. -/
  | expected (what : String) (place : Cursor)
  /-- Every alternative failed at the cursor. -/
  | noneMatched (place : Cursor)
deriving DecidableEq

namespace Failure

/-- The cursor at which the failure was found out. -/
def cursor : Failure → Cursor
  | expected _ place => place
  | noneMatched place => place

/-- What was expected, in words. -/
def expectation : Failure → String
  | expected what _ => what
  | noneMatched _ => "no parser matched"

/-- The number of bytes before the failure. -/
def position (failure : Failure) : Nat := failure.cursor.position

/-- The failure in one line. -/
def message : Failure → String
  | expected what place => "expected " ++ what ++ " at " ++ place.description
  | noneMatched place => "no parser matched at " ++ place.description

/-- The failure in one line, an empty line, and the lines around the failure. -/
def report (failure : Failure) : String :=
  "Syntax error: " ++ failure.message ++ "\n\n" ++
    String.join (failure.cursor.contextLines.map fun row => String.ofList row ++ "\n")

end Failure

end Descent
