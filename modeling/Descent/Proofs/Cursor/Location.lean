import Mathlib.Algebra.Order.BigOperators.Group.List
import Mathlib.Algebra.Order.Ring.Nat
import Descent.Proofs.Cursor.Lines
import Descent.Proofs.Cursor.Span

/-!
# Locations and positions

The lines of a text lie behind one another in its bytes, each with a line feed behind it but the
last.  A location therefore stands for one byte offset, and of two locations in a text the one that
comes first by line and then by offset stands for the smaller one (`Location.positionIn_lt_iff`).
The location of a cursor is in its text and stands for its position, so that over one text locations
tell cursors apart and order them as positions do.
-/

namespace Descent

open Text

/-! ## Where lines start -/

namespace Text

variable {text line : List Char} {i j : Nat}

/-- The offset at which a line starts, the first one being line one: the bytes of the lines above
it and of the line feeds behind them. -/
def offsetOfLine (text : List Char) (number : Nat) : Nat :=
  (((lines text).take (number - 1)).map fun line => byteLength line + 1).sum

theorem offsetOfLine_succ (hi : 1 ≤ i) (hline : (lines text)[i - 1]? = some line) :
    offsetOfLine text (i + 1) = offsetOfLine text i + byteLength line + 1 := by
  have htake : (lines text).take (i + 1 - 1) = (lines text).take (i - 1) ++ [line] := by
    rw [show i + 1 - 1 = i - 1 + 1 by omega, List.take_add_one, hline]
    rfl
  unfold offsetOfLine
  rw [htake, List.map_append, List.sum_append, List.map_singleton, List.sum_singleton]
  exact (Nat.add_assoc _ _ _).symm

theorem offsetOfLine_mono (h : i ≤ j) : offsetOfLine text i ≤ offsetOfLine text j := by
  unfold offsetOfLine
  apply List.Sublist.sum_le_sum
  · apply List.Sublist.map
    exact List.take_sublist_take_left (by omega)
  · intro n _
    exact Nat.zero_le n

/-- A line ends before any line below it starts. -/
theorem offsetOfLine_add_lt (hi : 1 ≤ i) (hline : (lines text)[i - 1]? = some line) (h : i < j) :
    offsetOfLine text i + byteLength line < offsetOfLine text j := by
  have hnext := offsetOfLine_succ hi hline
  have hbelow : offsetOfLine text (i + 1) ≤ offsetOfLine text j := offsetOfLine_mono h
  omega

/-- With a line feed behind the last line too, the bytes of the lines are those of the text. -/
theorem sum_byteLength_lines (t : List Char) :
    ((lines t).map fun line => byteLength line + 1).sum = byteLength t + 1 := by
  induction t using line_induction with
  | last w hw =>
    rw [lines_of_oneLine hw]
    simp
  | cons w t hw ih =>
    rw [lines_append_cons, lines_of_oneLine hw, List.map_append, List.sum_append, ih]
    have hfeed : Char.utf8Size '\n' = 1 := by decide
    simp [hfeed]
    omega

end Text

/-! ## Locations in a text -/

namespace Location

variable {text : List Char} {a b : Location}

/-- The text has the line of the location, which is not shorter than the offset. -/
def Within (here : Location) (text : List Char) : Prop :=
  1 ≤ here.line ∧
    ∃ line, (lines text)[here.line - 1]? = some line ∧ here.offset ≤ byteLength line

/-- The byte offset in the text that the location stands for. -/
def positionIn (here : Location) (text : List Char) : Nat :=
  offsetOfLine text here.line + here.offset

/-- The first location comes before the second one, by line and then by offset. -/
def Before (a b : Location) : Prop := a.line < b.line ∨ a.line = b.line ∧ a.offset < b.offset

theorem before_or_eq_or_before (a b : Location) : a.Before b ∨ a = b ∨ b.Before a := by
  obtain ⟨line, offset⟩ := a
  obtain ⟨line', offset'⟩ := b
  simp only [Before, mk.injEq]
  omega

theorem Before.positionIn_lt (ha : a.Within text) (h : a.Before b) :
    a.positionIn text < b.positionIn text := by
  obtain ⟨hline, line, hget, hoffset⟩ := ha
  unfold positionIn
  rcases h with h | ⟨hsame, h⟩
  · have hbelow := offsetOfLine_add_lt hline hget h
    omega
  · rw [hsame]
    omega

/-- Locations in a text are in the order of the offsets that they stand for. -/
theorem positionIn_lt_iff (ha : a.Within text) (hb : b.Within text) :
    a.positionIn text < b.positionIn text ↔ a.Before b := by
  constructor
  · intro h
    rcases before_or_eq_or_before a b with hab | rfl | hba
    · exact hab
    · exact absurd h (Nat.lt_irrefl _)
    · have hlt := hba.positionIn_lt hb
      omega
  · exact Before.positionIn_lt ha

end Location

/-! ## The location of a cursor -/

namespace Cursor

theorem within_location (c : Cursor) : c.location.Within c.source := by
  refine ⟨c.line_location_le.1, c.lineStart ++ c.lineRest, c.getElem?_lines_source, ?_⟩
  rw [offset_location, byteLength_append]
  exact Nat.le_add_right _ _

/-- The location of a cursor stands for its position. -/
theorem positionIn_location (c : Cursor) : c.location.positionIn c.source = c.position := by
  obtain ⟨above, hline, habove⟩ := c.exists_lines_above
  have hread : lines c.before.reverse = above ++ [c.lineStart] := by
    have h := habove []
    rwa [List.append_nil, List.append_nil, lines_of_oneLine c.oneLine_lineStart] at h
  have hbytes := sum_byteLength_lines c.before.reverse
  rw [hread, List.map_append, List.sum_append, byteLength_reverse] at hbytes
  have htake : (lines c.source).take (c.location.line - 1) = above := by
    rw [source, habove, ← hline, Nat.add_sub_cancel, List.take_left]
  rw [Location.positionIn, offsetOfLine, htake, offset_location, position]
  simp only [List.map_singleton, List.sum_singleton] at hbytes
  omega

/-- The location of a cursor names a line of its text and an offset in that line, and its position
is the length of the lines above with their line feeds, and the offset.  Over one text two cursors
therefore have the same location only if they are the same, and the one at the earlier position has
the location that comes first. -/
theorem location_determines_position (c : Cursor) :
    1 ≤ c.location.line ∧ c.location.line ≤ (lines c.source).length ∧
    (∃ line, (lines c.source)[c.location.line - 1]? = some line ∧
      c.location.offset ≤ byteLength line) ∧
    c.position = (((lines c.source).take (c.location.line - 1)).map fun line =>
      byteLength line + 1).sum + c.location.offset ∧
    ∀ d : Cursor, d.source = c.source →
      (d.location = c.location ↔ d = c) ∧
      (c.position < d.position ↔ c.location.Before d.location) := by
  obtain ⟨hfirst, hlast⟩ := c.line_location_le
  refine ⟨hfirst, hlast, c.within_location.2, c.positionIn_location.symm, ?_⟩
  intro d hd
  constructor
  · constructor
    · intro hlocation
      apply eq_of_position_eq hd
      rw [← d.positionIn_location, ← c.positionIn_location, hlocation, hd]
    · rintro rfl
      rfl
  · rw [← Location.positionIn_lt_iff c.within_location (hd ▸ d.within_location),
      c.positionIn_location, ← hd, d.positionIn_location]

/-- The cursor on the empty line below `é`, and the one inside the last line. -/
theorem location_determines_position_empty_line :
    ((ofString "é\n\nbc").advance 5).source = ((ofString "é\n\nbc").advance 3).source ∧
    ((ofString "é\n\nbc").advance 3).location = ⟨2, 0⟩ ∧
    ((ofString "é\n\nbc").advance 5).location = ⟨3, 1⟩ ∧
    ((ofString "é\n\nbc").advance 5).location ≠ ((ofString "é\n\nbc").advance 3).location ∧
    Location.Before ⟨2, 0⟩ ⟨3, 1⟩ := by
  have hsource :
      ((ofString "é\n\nbc").advance 5).source = ((ofString "é\n\nbc").advance 3).source := by
    rw [source_advance, source_advance]
  obtain ⟨-, -, -, -, hothers⟩ := location_determines_position ((ofString "é\n\nbc").advance 3)
  obtain ⟨hsame, hbefore⟩ := hothers _ hsource
  refine ⟨hsource, by decide, by decide, ?_, ?_⟩
  · rw [Ne, hsame]
    decide
  · exact hbefore.1 (by decide)

end Cursor

end Descent
