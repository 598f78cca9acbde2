import Descent.Text.Bytes

/-!
# Cursors

A cursor is a place in a text: the characters already read and the characters still to come.
Cursors are values.  Advancing gives another cursor over the same text, so that going back to an
earlier place needs no more than having kept its cursor.

Positions count bytes.  A cursor stands between two characters, so every position it can have is a
character boundary.
-/

namespace Descent

open Text

/-- A place in a text. -/
structure Cursor where
  /-- The characters already read, the last one first. -/
  before : List Char
  /-- The characters still to come. -/
  rest : List Char
deriving DecidableEq

namespace Cursor

/-- The cursor at the start of a text. -/
def start (text : List Char) : Cursor := ⟨[], text⟩

/-- The cursor at the start of a string. -/
def ofString (text : String) : Cursor := start text.toList

/-- The whole text the cursor stands in. -/
def source (c : Cursor) : List Char := c.before.reverse ++ c.rest

/-- The number of bytes already read. -/
def position (c : Cursor) : Nat := byteLength c.before

/-- The next character, unless the text is used up. -/
def peek? (c : Cursor) : Option Char := c.rest.head?

/-- Whether the text is used up. -/
def atEnd (c : Cursor) : Bool := c.rest.isEmpty

/-- The cursor `n` bytes further on: at the end if there are fewer, and after the character that
the count falls into if it falls into one. -/
def advance (c : Cursor) (n : Nat) : Cursor :=
  let parts := splitBytes n c.rest
  ⟨parts.1.reverse ++ c.before, parts.2⟩

/-- The text from this cursor to a later one over the same text, and nothing if the other one is
not later. -/
def sliceTo (c later : Cursor) : List Char :=
  (splitBytes (later.position - c.position) c.rest).1

/-! ## The text and the position -/

@[simp] theorem source_start (text : List Char) : (start text).source = text := rfl

@[simp] theorem rest_start (text : List Char) : (start text).rest = text := rfl

@[simp] theorem position_start (text : List Char) : (start text).position = 0 := rfl

@[simp] theorem source_advance (c : Cursor) (n : Nat) : (c.advance n).source = c.source := by
  simp [advance, source, splitBytes_append]

theorem position_advance (c : Cursor) (n : Nat) :
    (c.advance n).position = c.position + byteLength (splitBytes n c.rest).1 := by
  simp [advance, position, Nat.add_comm]

/-- Read and unread bytes make up the text. -/
theorem position_add_byteLength_rest (c : Cursor) :
    c.position + byteLength c.rest = byteLength c.source := by
  simp [position, source]

theorem position_le_byteLength_source (c : Cursor) : c.position ≤ byteLength c.source := by
  have := c.position_add_byteLength_rest
  omega

/-- Advancing by the length of what comes next moves past exactly that. -/
@[simp] theorem advance_byteLength (before word after : List Char) :
    advance ⟨before, word ++ after⟩ (byteLength word) = ⟨word.reverse ++ before, after⟩ := by
  simp [advance]

/-- The slice between two cursors is what was read between them. -/
@[simp] theorem sliceTo_reverse_append (before word after : List Char) :
    sliceTo ⟨before, word ++ after⟩ ⟨word.reverse ++ before, after⟩ = word := by
  simp [sliceTo, position]

end Cursor

end Descent
