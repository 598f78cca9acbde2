import Descent.Cursor.Basic

/-!
# The text between two cursors

`c.Spans w d` says that the cursor `d` is reached from `c` by reading the characters `w`.  Both
cursors then stand in the same text, `w` is the slice between them, and their positions differ by
the bytes of `w`.  Over one text there is such a `w` between any two cursors in the order of their
positions.
-/

namespace Descent.Cursor

open Text

/-- Reading the characters leads from the first cursor to the second one. -/
structure Spans (c : Cursor) (w : List Char) (d : Cursor) : Prop where
  rest_eq : c.rest = w ++ d.rest
  before_eq : d.before = w.reverse ++ c.before

theorem spans_append (before w after : List Char) :
    Spans ⟨before, w ++ after⟩ w ⟨w.reverse ++ before, after⟩ :=
  ⟨rfl, rfl⟩

theorem spans_nil_iff {c d : Cursor} : c.Spans [] d ↔ d = c := by
  constructor
  · rintro ⟨hr, hb⟩
    obtain ⟨b, r⟩ := d
    obtain ⟨b', r'⟩ := c
    simp_all
  · rintro rfl
    exact ⟨rfl, rfl⟩

theorem spans_refl (c : Cursor) : c.Spans [] c := spans_nil_iff.2 rfl

theorem Spans.trans {c d e : Cursor} {u v : List Char} (h : c.Spans u d) (h' : d.Spans v e) :
    c.Spans (u ++ v) e :=
  ⟨by rw [h.rest_eq, h'.rest_eq, List.append_assoc],
    by rw [h'.before_eq, h.before_eq, List.reverse_append, List.append_assoc]⟩

/-- The cursor behind some characters is determined by them. -/
theorem Spans.unique {c d d' : Cursor} {w : List Char} (h : c.Spans w d) (h' : c.Spans w d') :
    d = d' := by
  obtain ⟨b, r⟩ := d
  obtain ⟨b', r'⟩ := d'
  have hr : r = r' := List.append_cancel_left (h.rest_eq.symm.trans h'.rest_eq)
  have hb : b = b' := h.before_eq.trans h'.before_eq.symm
  rw [hr, hb]

/-- Where a text continues with some characters, there is a cursor behind them. -/
theorem exists_spans {c : Cursor} {w r : List Char} (h : c.rest = w ++ r) :
    ∃ d : Cursor, c.Spans w d ∧ d.rest = r :=
  ⟨⟨w.reverse ++ c.before, r⟩, ⟨h, rfl⟩, rfl⟩

/-- Between two cursors there is one behind each part of the text between them. -/
theorem Spans.split {c e : Cursor} {u v : List Char} (h : c.Spans (u ++ v) e) :
    ∃ d : Cursor, c.Spans u d ∧ d.Spans v e := by
  refine ⟨⟨u.reverse ++ c.before, v ++ e.rest⟩, ⟨?_, rfl⟩, ⟨rfl, ?_⟩⟩
  · rw [h.rest_eq, List.append_assoc]
  · rw [h.before_eq, List.reverse_append, List.append_assoc]

theorem Spans.source_eq {c d : Cursor} {w : List Char} (h : c.Spans w d) : d.source = c.source := by
  simp [source, h.before_eq, h.rest_eq]

theorem Spans.position_eq {c d : Cursor} {w : List Char} (h : c.Spans w d) :
    d.position = c.position + byteLength w := by
  simp [position, h.before_eq, Nat.add_comm]

theorem Spans.advance_eq {c d : Cursor} {w : List Char} (h : c.Spans w d) :
    c.advance (byteLength w) = d := by
  refine Spans.unique ?_ h
  obtain ⟨b, r⟩ := c
  have hr : r = w ++ d.rest := h.rest_eq
  subst hr
  rw [advance_byteLength]
  exact spans_append b w d.rest

theorem Spans.sliceTo_eq {c d : Cursor} {w : List Char} (h : c.Spans w d) : c.sliceTo d = w := by
  rw [sliceTo, h.position_eq, Nat.add_sub_cancel_left, h.rest_eq, splitBytes_byteLength_append]

theorem Spans.length_rest {c d : Cursor} {w : List Char} (h : c.Spans w d) :
    c.rest.length = w.length + d.rest.length := by
  rw [h.rest_eq, List.length_append]

/-! ## Cursors over one text -/

/-- Over one text a cursor is reached from every cursor that is not behind it. -/
theorem exists_spans_of_position_le {c d : Cursor} (hd : d.source = c.source)
    (h : c.position ≤ d.position) : ∃ w, c.Spans w d := by
  unfold position at h
  rcases List.append_eq_append_iff.1 hd with ⟨w, hbefore, hrest⟩ | ⟨w, hbefore, hrest⟩
  · -- Read further on, `c` is still not in front of `d`, so that nothing lies between them.
    have hlength : byteLength c.before = byteLength d.before + byteLength w := by
      rw [← byteLength_reverse c.before, hbefore, byteLength_append, byteLength_reverse]
    obtain rfl : w = [] := byteLength_eq_zero_iff.1 (by omega)
    refine ⟨[], ?_, ?_⟩
    · exact hrest.symm
    · rw [← List.reverse_inj, List.reverse_nil, List.nil_append, hbefore, List.append_nil]
  · refine ⟨w, hrest, ?_⟩
    rw [← List.reverse_inj, hbefore, List.reverse_append, List.reverse_reverse]

/-- Over one text a cursor is determined by its position. -/
theorem eq_of_position_eq {c d : Cursor} (hd : d.source = c.source)
    (h : d.position = c.position) : d = c := by
  obtain ⟨w, hw⟩ := exists_spans_of_position_le hd (Nat.le_of_eq h.symm)
  have hlength := hw.position_eq
  obtain rfl : w = [] := byteLength_eq_zero_iff.1 (by omega)
  exact spans_nil_iff.1 hw

end Descent.Cursor
