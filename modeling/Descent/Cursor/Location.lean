import Descent.Cursor.Basic

/-!
# Lines

A location names a place by its line and by the number of bytes before it in that line.  It counts
bytes and not columns, which would depend on tabs and on how wide a character is drawn.
-/

namespace Descent

open Text

/-- A line, counted from one, and the number of bytes before a place in it. -/
structure Location where
  line : Nat
  offset : Nat
deriving DecidableEq

namespace Cursor

/-- The line that the cursor stands in and the bytes before it in that line. -/
def location (c : Cursor) : Location where
  line := c.before.count '\n' + 1
  offset := byteLength (c.before.takeWhile (· ≠ '\n'))

/-- The place of the cursor in words. -/
def description (c : Cursor) : String :=
  "line " ++ toString c.location.line ++ ", byte offset " ++ toString c.location.offset ++
    " (absolute position: " ++ toString c.position ++ ")"

end Cursor

end Descent
