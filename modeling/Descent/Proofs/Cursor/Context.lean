import Mathlib.Data.List.Basic
import Descent.Proofs.Cursor.Lines

/-!
# The lines shown around a cursor

The context of a cursor has a row for each line at most two lines away, in order, and one marker
more, right under the line of the cursor.  The arrow of the marker stands under the byte of that row
at which the text still to come begins.
-/

namespace Descent

open Text

/-! ## Numbered lines -/

theorem zipIdx_eq_map_range' {α : Type} (l : List α) (d : α) (k : Nat) :
    l.zipIdx k = (List.range' k l.length).map fun n => (l.getD (n - k) d, n) := by
  induction l generalizing k with
  | nil => rfl
  | cons a l ih =>
    rw [List.zipIdx_cons, ih, List.length_cons, List.range'_succ, List.map_cons, Nat.sub_self,
      List.getD_cons_zero]
    congr 1
    apply List.map_congr_left
    intro n hn
    obtain ⟨hlow, -⟩ := List.mem_range'_1.1 hn
    rw [show n - k = n - (k + 1) + 1 by omega, List.getD_cons_succ]

/-- Of the numbers in a range, only those in a part of it count if the others give nothing. -/
theorem flatMap_range'_eq {α : Type} {f : Nat → List α} {k m first last : Nat}
    (hfirst : k ≤ first) (hlast : last < k + m) (hle : first ≤ last)
    (h : ∀ n ∈ List.range' k m, n < first ∨ last < n → f n = []) :
    (List.range' k m).flatMap f = (List.range' first (last + 1 - first)).flatMap f := by
  obtain ⟨i, rfl⟩ := Nat.exists_eq_add_of_le hfirst
  obtain ⟨j, rfl⟩ := Nat.exists_eq_add_of_le hle
  obtain ⟨l, rfl⟩ : ∃ l, m = i + (j + 1 + l) := ⟨m - (i + (j + 1)), by omega⟩
  simp only [List.mem_range'_1] at h
  have hbelow : (List.range' k i).flatMap f = [] := by
    apply List.flatMap_eq_nil_iff.2
    intro n hn
    obtain ⟨hlow, hhigh⟩ := List.mem_range'_1.1 hn
    exact h n (by omega) (.inl hhigh)
  have habove : (List.range' (k + i + (j + 1)) l).flatMap f = [] := by
    apply List.flatMap_eq_nil_iff.2
    intro n hn
    obtain ⟨hlow, hhigh⟩ := List.mem_range'_1.1 hn
    exact h n (by omega) (.inr (by omega))
  rw [← List.range'_append_1, ← List.range'_append_1, List.flatMap_append, List.flatMap_append,
    hbelow, habove, List.nil_append, List.append_nil]
  congr 2
  omega

namespace Location

variable {here : Location} {text : List Char}

/-- The row of a line of the text. -/
def row (here : Location) (text : List Char) (number : Nat) : List Char :=
  here.label number ++ (lines text).getD (number - 1) []

theorem rows_of_eq (here : Location) (text : List Char) :
    here.rows ((lines text).getD (here.line - 1) []) here.line =
      [here.row text here.line, here.marker] := by
  rw [rows, if_pos rfl]
  rfl

theorem rows_of_ne {number : Nat} (h : number ≠ here.line) :
    here.rows ((lines text).getD (number - 1) []) number = [here.row text number] := by
  rw [rows, if_neg h]
  rfl

theorem context_eq_flatMap (here : Location) (text : List Char) :
    here.context text = (List.range' 1 (lines text).length).flatMap fun number =>
      if here.shows number then here.rows ((lines text).getD (number - 1) []) number else [] := by
  rw [context, zipIdx_eq_map_range' (lines text) [] 1, List.flatMap_map]

theorem shows_iff {number : Nat} :
    here.shows number = true ↔ here.line - 2 ≤ number ∧ number ≤ here.line + 2 := by
  simp [shows]

theorem flatMap_rows_eq_map {numbers : List Nat}
    (h : ∀ n ∈ numbers, here.shows n = true ∧ n ≠ here.line) :
    (numbers.flatMap fun n =>
      if here.shows n then here.rows ((lines text).getD (n - 1) []) n else []) =
      numbers.map (here.row text) := by
  rw [List.map_eq_flatMap]
  apply List.flatMap_congr
  intro n hn
  rw [if_pos (h n hn).1, rows_of_ne (h n hn).2]

theorem range'_eq_append_cons {first line last : Nat} (h : first ≤ line) (h' : line ≤ last) :
    List.range' first (last + 1 - first) =
      List.range' first (line - first) ++ line :: List.range' (line + 1) (last - line) := by
  obtain ⟨i, rfl⟩ := Nat.exists_eq_add_of_le h
  obtain ⟨j, rfl⟩ := Nat.exists_eq_add_of_le h'
  rw [← List.range'_succ, Nat.add_sub_cancel_left, List.range'_append_1]
  congr 1
  omega

/-- The rows of the lines above, that of the location, the marker, and the rows of the lines
below. -/
theorem context_eq {first last : Nat} (h : 1 ≤ here.line) (hline : here.line ≤ (lines text).length)
    (hfirst : first = max 1 (here.line - 2))
    (hlast : last = min (lines text).length (here.line + 2)) :
    here.context text =
      (List.range' first (here.line - first)).map (here.row text) ++
        here.row text here.line :: here.marker ::
          (List.range' (here.line + 1) (last - here.line)).map (here.row text) := by
  have hsplit : List.range' first (last + 1 - first) =
      List.range' first (here.line - first) ++
        here.line :: List.range' (here.line + 1) (last - here.line) :=
    range'_eq_append_cons (by omega) (by omega)
  have hwindow : here.context text = (List.range' first (last + 1 - first)).flatMap fun n =>
      if here.shows n then here.rows ((lines text).getD (n - 1) []) n else [] := by
    rw [context_eq_flatMap]
    apply flatMap_range'_eq (by omega) (by omega) (by omega)
    intro n hn hout
    obtain ⟨hlow, hhigh⟩ := List.mem_range'_1.1 hn
    rw [if_neg]
    rw [shows_iff]
    omega
  rw [hwindow, hsplit, List.flatMap_append, List.flatMap_cons, flatMap_rows_eq_map,
    flatMap_rows_eq_map]
  · rw [if_pos (shows_iff.2 (by omega)), rows_of_eq]
    rfl
  · intro n hn
    obtain ⟨hlow, hhigh⟩ := List.mem_range'_1.1 hn
    exact ⟨shows_iff.2 (by omega), by omega⟩
  · intro n hn
    obtain ⟨hlow, hhigh⟩ := List.mem_range'_1.1 hn
    exact ⟨shows_iff.2 (by omega), by omega⟩

end Location

/-! ## The context of a cursor -/

namespace Cursor

theorem getD_lines_source (c : Cursor) :
    (lines c.source).getD (c.location.line - 1) [] = c.lineStart ++ c.lineRest := by
  rw [List.getD_eq_getElem?_getD, getElem?_lines_source]
  rfl

/-- The row of the cursor's line up to the cursor is as long as the marker is indented. -/
theorem exists_row_eq (c : Cursor) :
    ∃ front, c.location.row c.source c.location.line = front ++ c.lineRest ∧
      c.location.marker = List.replicate (byteLength front) ' ' ++ "^--- here".toList := by
  refine ⟨c.location.label c.location.line ++ c.lineStart, ?_, ?_⟩
  · rw [List.append_assoc, ← getD_lines_source]
    rfl
  · rw [byteLength_append, ← offset_location]
    rfl

/-- The lines of a text have no line feeds in them and make it up with line feeds between them, and
that of the cursor is one of them.  The context shows the lines from two above it, or the first
line, to two below it, or the last line, in order, each unchanged behind its label.  Right under the
row of the line of the cursor, and nowhere else, is the marker: it has as many blanks as there are
bytes in that row before what is still to come of it. -/
theorem contextLines_eq (c : Cursor) :
    ['\n'].intercalate (lines c.source) = c.source ∧ (∀ l ∈ lines c.source, '\n' ∉ l) ∧
    ∃ first last : Nat, ∃ row : Nat → List Char, ∃ front : List Char,
      first = max 1 (c.location.line - 2) ∧ first ≤ c.location.line ∧
      last = min (lines c.source).length (c.location.line + 2) ∧ c.location.line ≤ last ∧
      (∀ number, first ≤ number → number ≤ last →
        ∃ line, (lines c.source)[number - 1]? = some line ∧
          row number =
            (if number = c.location.line then "  > " else "    ").toList ++
              (toString number).toList ++ " | ".toList ++ line) ∧
      row c.location.line = front ++ c.rest.takeWhile (· ≠ '\n') ∧
      c.contextLines =
        (List.range' first (c.location.line - first)).map row ++
          row c.location.line :: (List.replicate (byteLength front) ' ' ++ "^--- here".toList) ::
            (List.range' (c.location.line + 1) (last - c.location.line)).map row := by
  obtain ⟨hpos, hle⟩ := c.line_location_le
  obtain ⟨front, hfront, hmarker⟩ := c.exists_row_eq
  refine ⟨intercalate_lines c.source, fun l hl => oneLine_iff.1 (oneLine_of_mem_lines hl),
    max 1 (c.location.line - 2), min (lines c.source).length (c.location.line + 2),
    c.location.row c.source, front, rfl, by omega, rfl, by omega, ?_, hfront, ?_⟩
  · intro number hlow hhigh
    have hlt : number - 1 < (lines c.source).length := by omega
    refine ⟨_, List.getElem?_eq_getElem hlt, ?_⟩
    rw [Location.row, List.getD_eq_getElem?_getD, List.getElem?_eq_getElem hlt]
    rfl
  · rw [← hmarker]
    exact Location.context_eq hpos hle rfl rfl

/-- At the end of a text with a line feed behind each of its lines, the arrow stands under an empty
line of its own. -/
example : (Cursor.contextLines ⟨"\nb\na".toList, []⟩).map String.ofList =
    ["    1 | a", "    2 | b", "  > 3 | ", "        ^--- here"] := by
  decide

end Cursor

end Descent
