import Descent.Cursor.Location

/-!
# The lines around a cursor

A report shows the line of the cursor with up to two lines on either side, each with its number,
and under the line of the cursor a marker that points at the next byte.
-/

namespace Descent

open Text

/-- The lines of a text: the runs between line feeds, with an empty last one after a final line
feed. -/
def Text.lines (text : List Char) : List (List Char) := text.splitOn '\n'

namespace Location

/-- What stands before the content of a line: its number, with an arrow on the line of the
location. -/
def label (here : Location) (number : Nat) : List Char :=
  (if number = here.line then "  > " else "    ").toList ++ (toString number).toList ++ " | ".toList

/-- The row that points at the location, to be put under its line. -/
def marker (here : Location) : List Char :=
  List.replicate (byteLength (here.label here.line) + here.offset) ' ' ++ "^--- here".toList

/-- A line of the text with its label, and the marker after the line of the location. -/
def rows (here : Location) (content : List Char) (number : Nat) : List (List Char) :=
  (here.label number ++ content) :: if number = here.line then [here.marker] else []

/-- Whether a line is shown around the location: it is at most two lines away. -/
def shows (here : Location) (number : Nat) : Bool :=
  here.line - 2 ≤ number && number ≤ here.line + 2

end Location

/-- The rows that show a location in a text. -/
def Location.context (here : Location) (text : List Char) : List (List Char) :=
  ((lines text).zipIdx 1).flatMap fun (content, number) =>
    if here.shows number then here.rows content number else []

/-- The rows that show where the cursor stands. -/
def Cursor.contextLines (c : Cursor) : List (List Char) := c.location.context c.source

end Descent
