import Descent.Cursor.Context
import Descent.Proofs.Cursor.Span
import Descent.Proofs.Text.Run

/-!
# The lines of a text

A text is its lines with line feeds between them.  The line of a cursor is made of what was read of
it and what is still to come, and there are as many lines above it as line feeds before the cursor.
-/

namespace Descent

open Text

/-! ## Splitting at line feeds -/

namespace Text

variable {w t : List Char}

/-- There is no line feed among the characters. -/
abbrev OneLine (w : List Char) : Prop := All (· ≠ '\n') w

theorem oneLine_iff : OneLine w ↔ '\n' ∉ w := by
  simp only [All, decide_eq_true_eq]
  constructor
  · exact fun h hmem => h '\n' hmem rfl
  · rintro h c hc rfl
    exact h hc

theorem lines_of_oneLine (h : OneLine w) : lines w = [w] :=
  List.splitOn_eq_singleton (oneLine_iff.1 h)

theorem lines_append_cons (u v : List Char) : lines (u ++ '\n' :: v) = lines u ++ lines v :=
  List.splitOnP_append_cons u v (beq_self_eq_true '\n')

/-- A text is a line, or a line with a line feed and another text behind it. -/
theorem line_induction {motive : List Char → Prop} (last : ∀ w, OneLine w → motive w)
    (cons : ∀ w t, OneLine w → motive t → motive (w ++ '\n' :: t)) (t : List Char) : motive t := by
  induction hn : t.length using Nat.strongRecOn generalizing t with
  | ind n ih =>
    obtain ⟨w, r, rfl, hw, hr⟩ := exists_isRun (· ≠ '\n') t
    cases r with
    | nil =>
      rw [List.append_nil]
      exact last w hw
    | cons c r =>
      obtain rfl : c = '\n' := by simpa using stops_cons_iff.1 hr
      rw [List.length_append, List.length_cons] at hn
      exact cons w r hw (ih r.length (by omega) r rfl)

theorem length_lines (t : List Char) : (lines t).length = t.count '\n' + 1 := by
  induction t using line_induction with
  | last w hw =>
    rw [lines_of_oneLine hw, List.count_eq_zero_of_not_mem (oneLine_iff.1 hw)]
    rfl
  | cons w t hw ih =>
    rw [lines_append_cons, lines_of_oneLine hw, List.count_append, List.count_cons_self,
      List.count_eq_zero_of_not_mem (oneLine_iff.1 hw), List.length_append, ih]
    simp only [List.length_singleton]
    omega

theorem oneLine_of_mem_lines {l : List Char} (h : l ∈ lines t) : OneLine l := by
  induction t using line_induction with
  | last w hw =>
    rw [lines_of_oneLine hw, List.mem_singleton] at h
    exact h ▸ hw
  | cons w t hw ih =>
    rw [lines_append_cons, lines_of_oneLine hw, List.singleton_append, List.mem_cons] at h
    rcases h with rfl | h
    · exact hw
    · exact ih h

/-- The lines with line feeds between them are the text again. -/
theorem intercalate_lines (t : List Char) : ['\n'].intercalate (lines t) = t :=
  List.intercalate_splitOn '\n'

end Text

/-! ## The line of a cursor -/

namespace Cursor

/-- What was read of the line of the cursor. -/
def lineStart (c : Cursor) : List Char := (c.before.takeWhile (· ≠ '\n')).reverse

/-- What is still to come of the line of the cursor. -/
def lineRest (c : Cursor) : List Char := c.rest.takeWhile (· ≠ '\n')

theorem offset_location (c : Cursor) : c.location.offset = byteLength c.lineStart :=
  (byteLength_reverse _).symm

/-- Lines above that of the cursor have all been read, together with the line feeds behind them, and
they are the same whatever comes next. -/
theorem exists_lines_above (c : Cursor) :
    ∃ above, above.length + 1 = c.location.line ∧
      ∀ t, lines (c.before.reverse ++ t) = above ++ lines (c.lineStart ++ t) := by
  obtain ⟨before, rest⟩ := c
  obtain ⟨w, s, rfl, hrun⟩ := exists_isRun (· ≠ '\n') before
  have hstart : lineStart ⟨w ++ s, rest⟩ = w.reverse := by
    rw [lineStart, takeWhile_append_of_isRun hrun]
  have hcount : w.count '\n' = 0 := List.count_eq_zero_of_not_mem (oneLine_iff.1 hrun.1)
  rw [hstart, location, List.count_append, hcount, Nat.zero_add]
  cases s with
  | nil => exact ⟨[], rfl, fun t => by simp⟩
  | cons c s =>
    obtain rfl : c = '\n' := by simpa using stops_cons_iff.1 hrun.2
    refine ⟨lines s.reverse, ?_, fun t => ?_⟩
    · rw [length_lines, List.count_reverse, List.count_cons_self]
    · rw [← lines_append_cons]
      simp

theorem oneLine_lineStart (c : Cursor) : OneLine c.lineStart := by
  intro x hx
  exact (isRun_takeWhile_dropWhile (· ≠ '\n') c.before).1 x (List.mem_reverse.1 hx)

/-- The lines of a text are those above the line of a cursor, that line and those below it. -/
theorem exists_lines_source (c : Cursor) :
    ∃ above below, lines c.source = above ++ (c.lineStart ++ c.lineRest) :: below ∧
      above.length + 1 = c.location.line := by
  obtain ⟨above, hline, habove⟩ := c.exists_lines_above
  obtain ⟨w, r, hrest, hrun⟩ := exists_isRun (· ≠ '\n') c.rest
  have hw : c.lineRest = w := by rw [lineRest, hrest, takeWhile_append_of_isRun hrun]
  have hall : OneLine (c.lineStart ++ w) := all_append_iff.2 ⟨c.oneLine_lineStart, hrun.1⟩
  rw [source, habove, hw, hrest]
  cases r with
  | nil => exact ⟨above, [], by rw [List.append_nil, lines_of_oneLine hall], hline⟩
  | cons x r =>
    obtain rfl : x = '\n' := by simpa using stops_cons_iff.1 hrun.2
    refine ⟨above, lines r, ?_, hline⟩
    rw [← List.append_assoc c.lineStart, lines_append_cons, lines_of_oneLine hall,
      List.singleton_append]

theorem getElem?_lines_source (c : Cursor) :
    (lines c.source)[c.location.line - 1]? = some (c.lineStart ++ c.lineRest) := by
  obtain ⟨above, below, hlines, hline⟩ := c.exists_lines_source
  rw [hlines, ← hline, Nat.add_sub_cancel]
  simp

theorem line_location_le (c : Cursor) :
    1 ≤ c.location.line ∧ c.location.line ≤ (lines c.source).length := by
  obtain ⟨above, below, hlines, hline⟩ := c.exists_lines_source
  rw [hlines, List.length_append, List.length_cons]
  omega

end Cursor

end Descent
