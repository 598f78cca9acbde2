import Descent.Proofs.Cursor.Span
import Descent.Proofs.Text.Boundary

/-!
# Places

A place is a string with an offset in bytes, which is nothing but a number: it may be out of range
or inside a character.  Moving on adds to the offset in words of 64 bits, cuts it off at the end of
the string and rounds it up.  `Cursor.place` is where a cursor is, counted in bytes, and the lemmas
about it say that cursors move and cut as places do, and stay at character boundaries.
-/

namespace Descent

open Text

/-- An offset into the bytes of a string. -/
structure Place where
  text : String
  offset : Nat
deriving DecidableEq

namespace Place

/-- The greatest offset that fits into a word of 64 bits. -/
def maxOffset : Nat := UInt64.size - 1

/-- The place is in its string and not inside a character. -/
def InBounds (p : Place) : Prop :=
  p.offset ≤ p.text.utf8ByteSize ∧ String.Pos.Raw.IsValid p.text ⟨p.offset⟩

/-- What comes after the place. -/
def rest? (p : Place) : Option String := slice? p.text p.offset p.text.utf8ByteSize

/-- What comes between the place and the offset of a later one. -/
def sliceTo? (p later : Place) : Option String :=
  slice? p.text p.offset (max later.offset p.offset)

/-- The place a number of bytes further on, where the sum saturates, is cut off at the end of the
string and is rounded up. -/
def advance (p : Place) (n : Nat) : Place :=
  ⟨p.text, roundUp p.text (min (min (p.offset + n) maxOffset) p.text.utf8ByteSize)⟩

/-- The place exactly a number of bytes further on.  There is none if the offset had to be cut off
or rounded up. -/
def advanceExactly? (p : Place) (n : Nat) : Option Place :=
  if (p.advance n).offset = p.offset + n then some (p.advance n) else none

end Place

namespace Cursor

/-- Where the cursor is, counted in bytes. -/
def place (c : Cursor) : Place := ⟨String.ofList c.source, c.position⟩

theorem position_eq_byteLength (c : Cursor) : c.position = byteLength c.before.reverse := by
  rw [byteLength_reverse, position]

theorem utf8ByteSize_place (c : Cursor) : c.place.text.utf8ByteSize = byteLength c.source :=
  utf8ByteSize_ofList c.source

theorem inBounds_place (c : Cursor) : c.place.InBounds := by
  refine ⟨?_, ?_⟩
  · rw [utf8ByteSize_place]
    exact c.position_le_byteLength_source
  · rw [← isBoundary_iff, place, position_eq_byteLength]
    exact isBoundary_byteLength _ _

theorem place_of_source {text : String} {c : Cursor} (hc : c.source = text.toList) :
    c.place = ⟨text, c.position⟩ := by
  rw [place, hc, String.ofList_toList]

theorem place_ofString (text : String) : (ofString text).place = ⟨text, 0⟩ :=
  place_of_source rfl

/-- A cursor is determined by its place. -/
theorem eq_of_place_eq {c d : Cursor} (h : c.place = d.place) : c = d := by
  have hsource : c.source = d.source := String.ofList_injective (congrArg Place.text h)
  have hposition : c.position = d.position := congrArg Place.offset h
  exact eq_of_position_eq hsource hposition

/-- The slice between two cursors is what was read between them. -/
theorem Spans.sliceTo?_place {c d : Cursor} {w : List Char} (h : c.Spans w d) :
    c.place.sliceTo? d.place = some (String.ofList w) := by
  have hoffset : max d.position c.position = byteLength (c.before.reverse ++ w) := by
    rw [h.position_eq, byteLength_append, ← position_eq_byteLength]
    omega
  rw [Place.sliceTo?, place, place, hoffset, position_eq_byteLength, source, h.rest_eq]
  exact slice?_ofList _ _ _

theorem rest?_place (c : Cursor) : c.place.rest? = some (String.ofList c.rest) := by
  have hslice := slice?_ofList c.before.reverse c.rest []
  rw [List.append_nil] at hslice
  rw [Place.rest?, utf8ByteSize_place, place, position_eq_byteLength]
  exact hslice

theorem place_advance (c : Cursor) (n : Nat) :
    (c.advance n).place = ⟨c.place.text, c.position + byteLength (splitBytes n c.rest).1⟩ := by
  rw [place, source_advance, position_advance]
  rfl

/-- Cursors move on as places do. -/
theorem advance_place {c : Cursor} (hc : byteLength c.source < UInt64.size) (n : Nat) :
    c.place.advance n = (c.advance n).place := by
  have hsize := c.position_add_byteLength_rest
  -- The sum only saturates behind the end, where it is cut off anyway.
  have hcut : min (min (c.position + n) Place.maxOffset) (byteLength c.source) =
      byteLength c.before.reverse + min n (byteLength c.rest) := by
    rw [← position_eq_byteLength, Place.maxOffset]
    omega
  have hround := roundUp_eq c.before.reverse c.rest (Nat.min_le_right n (byteLength c.rest))
  rw [splitBytes_min, ← hcut, ← position_eq_byteLength] at hround
  rw [place_advance, Place.advance, utf8ByteSize_place]
  exact congrArg _ hround

/-- Moving on by the length of what comes next is exact. -/
theorem Spans.advanceExactly?_place {c d : Cursor} {w : List Char} (h : c.Spans w d)
    (hc : byteLength c.source < UInt64.size) :
    c.place.advanceExactly? (byteLength w) = some d.place := by
  have hadvance := advance_place hc (byteLength w)
  rw [h.advance_eq] at hadvance
  rw [Place.advanceExactly?, hadvance]
  exact if_pos h.position_eq

end Cursor

end Descent
