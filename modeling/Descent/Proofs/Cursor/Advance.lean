import Mathlib.Order.Bounds.Basic
import Mathlib.Order.Nat
import Descent.Proofs.Cursor.Place

/-!
# Moving on

Moving a cursor on by a number of bytes leads to the first boundary that is not in front of the
offset asked for, or of the end of the text.  `Cursor.position_advance_le_iff` says this of the
cursors of the text, and how moves add up follows from it alone.  Over places the boundary is found
by a loop that looks at one offset after another, `Place.RoundsUp`, and the loop ends where the
cursor is.  Slices are what cursors have read on the way to one another, so that those that meet
join, and reading one character after another gives all that is still to come.
-/

namespace Descent

open Text

/-! ## Rounding up byte by byte -/

namespace Place

variable {p q q' : Place}

/-- The place a number of bytes further on, before it is rounded up: the sum saturates at the
greatest offset, and what is behind the end of the string is cut off. -/
def cutOff (p : Place) (n : Nat) : Place :=
  ⟨p.text, min (min (p.offset + n) maxOffset) p.text.utf8ByteSize⟩

/-- The loop from the first place ends at the second one.  It stops at a boundary and goes on to the
next offset anywhere else, provided that this one fits into a word.  Nothing bounds its rounds, so
that a loop that runs on for ever, or out of the word, ends nowhere. -/
inductive RoundsUp : Place → Place → Prop where
  | stop {p : Place} : isBoundary p.text p.offset = true → RoundsUp p p
  | step {p q : Place} : isBoundary p.text p.offset = false → p.offset < maxOffset →
      RoundsUp ⟨p.text, p.offset + 1⟩ q → RoundsUp p q

theorem RoundsUp.unique (h : p.RoundsUp q) (h' : p.RoundsUp q') : q = q' := by
  induction h with
  | stop hp =>
    cases h' with
    | stop => rfl
    | step hp' => exact absurd (hp.symm.trans hp') (by decide)
  | step hp _ _ ih =>
    cases h' with
    | stop hp' => exact absurd (hp'.symm.trans hp) (by decide)
    | step _ _ h' => exact ih h'

/-- The end of the string is a boundary, so that the loop ends there at the latest. -/
theorem roundsUp_roundUp {s : String} {i : Nat} (hs : s.utf8ByteSize ≤ maxOffset)
    (hi : i ≤ s.utf8ByteSize) : RoundsUp ⟨s, i⟩ ⟨s, roundUp s i⟩ := by
  fun_induction roundUp s i with
  | case1 i hboundary => exact .stop hboundary
  | case2 i hinside hlt ih =>
    have hfits : i < maxOffset := by omega
    exact .step (Bool.eq_false_iff.2 hinside) hfits (ih hlt)
  | case3 i hinside hle =>
    obtain rfl : i = s.utf8ByteSize := by omega
    exact absurd (isBoundary_utf8ByteSize s) hinside

end Place

namespace Cursor

variable {c d : Cursor}

/-- The loop that rounds up where a place is moved to ends, and where the cursor is moved to. -/
theorem roundsUp_cutOff_iff (hc : byteLength c.source < UInt64.size) (n : Nat) {q : Place} :
    (c.place.cutOff n).RoundsUp q ↔ q = (c.advance n).place := by
  have hsize : c.place.text.utf8ByteSize ≤ Place.maxOffset := by
    rw [utf8ByteSize_place, Place.maxOffset]
    omega
  have hends : (c.place.cutOff n).RoundsUp (c.advance n).place := by
    rw [← advance_place hc]
    exact Place.roundsUp_roundUp hsize (Nat.min_le_right _ _)
  constructor
  · exact fun h => h.unique hends
  · rintro rfl
    exact hends

/-! ## The least boundary -/

/-- The boundaries of a text are the positions of its cursors. -/
theorem isBoundary_source_iff {i : Nat} :
    isBoundary (String.ofList c.source) i = true ↔
      ∃ d : Cursor, d.source = c.source ∧ d.position = i := by
  rw [isBoundary_ofList_iff]
  constructor
  · rintro ⟨u, r, hsource, rfl⟩
    refine ⟨⟨u.reverse, r⟩, ?_, byteLength_reverse u⟩
    rw [hsource, source, List.reverse_reverse]
  · rintro ⟨d, hd, rfl⟩
    exact ⟨d.before.reverse, d.rest, hd.symm, d.position_eq_byteLength⟩

theorem position_le_position_advance (c : Cursor) (n : Nat) :
    c.position ≤ (c.advance n).position := by
  rw [position_advance]
  exact Nat.le_add_right _ _

/-- Moving on stops at or in front of the cursors of the text that are as far on as was asked for,
or at the end, and of no others. -/
theorem position_advance_le_iff (hd : d.source = c.source) (n : Nat) :
    (c.advance n).position ≤ d.position ↔
      min (c.position + n) (byteLength c.source) ≤ d.position := by
  have hsize := c.position_add_byteLength_rest
  by_cases h : c.position ≤ d.position
  · obtain ⟨w, hw⟩ := exists_spans_of_position_le hd h
    have hcut := byteLength_splitBytes_le_iff n w d.rest
    have hposition := hw.position_eq
    rw [← hw.rest_eq] at hcut
    rw [position_advance]
    omega
  · have hback := c.position_le_position_advance n
    omega

theorem min_le_position_advance (c : Cursor) (n : Nat) :
    min (c.position + n) (byteLength c.source) ≤ (c.advance n).position :=
  (position_advance_le_iff (c.source_advance n) n).1 (Nat.le_refl _)

theorem isLeast_position_advance (c : Cursor) (n : Nat) :
    IsLeast {i | isBoundary (String.ofList c.source) i = true ∧
      min (c.position + n) (byteLength c.source) ≤ i} (c.advance n).position := by
  constructor
  · constructor
    · exact isBoundary_source_iff.2 ⟨c.advance n, c.source_advance n, rfl⟩
    · exact c.min_le_position_advance n
  · rintro i ⟨hboundary, hi⟩
    obtain ⟨d, hd, rfl⟩ := isBoundary_source_iff.1 hboundary
    exact (position_advance_le_iff hd n).2 hi

/-! ## One move after another -/

theorem monotone_position_advance (c : Cursor) : Monotone fun n => (c.advance n).position := by
  intro n m h
  apply (position_advance_le_iff (c.source_advance m) n).2
  have hfar := c.min_le_position_advance m
  omega

/-- In two moves a cursor comes at least as far as in one. -/
theorem position_advance_add_le (c : Cursor) (a b : Nat) :
    (c.advance (a + b)).position ≤ ((c.advance a).advance b).position := by
  have hfirst := c.min_le_position_advance a
  have hsecond := (c.advance a).min_le_position_advance b
  have hsource : ((c.advance a).advance b).source = c.source := by
    rw [source_advance, source_advance]
  rw [source_advance] at hsecond
  apply (position_advance_le_iff hsource (a + b)).2
  omega

/-- After a first move by exactly what was asked for, the two moves are one. -/
theorem advance_advance {a : Nat} (h : (c.advance a).position = c.position + a) (b : Nat) :
    (c.advance a).advance b = c.advance (a + b) := by
  have hsource : ((c.advance a).advance b).source = (c.advance (a + b)).source := by
    rw [source_advance, source_advance, source_advance]
  have hback : ((c.advance a).advance b).position ≤ (c.advance (a + b)).position := by
    have hfar := c.min_le_position_advance (a + b)
    have hsame : (c.advance (a + b)).source = (c.advance a).source := by
      rw [source_advance, source_advance]
    apply (position_advance_le_iff hsame b).2
    rw [source_advance, h, Nat.add_assoc]
    exact hfar
  exact eq_of_position_eq hsource (Nat.le_antisymm hback (c.position_advance_add_le a b))

/-! ## Slices that meet -/

theorem sliceTo_append_rest (hd : d.source = c.source) (h : c.position ≤ d.position) :
    c.sliceTo d ++ d.rest = c.rest := by
  obtain ⟨w, hw⟩ := exists_spans_of_position_le hd h
  rw [hw.sliceTo_eq, hw.rest_eq]

theorem sliceTo_append_sliceTo {e : Cursor} (hd : d.source = c.source) (he : e.source = c.source)
    (h : c.position ≤ d.position) (h' : d.position ≤ e.position) :
    c.sliceTo d ++ d.sliceTo e = c.sliceTo e := by
  obtain ⟨u, hu⟩ := exists_spans_of_position_le hd h
  obtain ⟨v, hv⟩ := exists_spans_of_position_le (he.trans hd.symm) h'
  rw [hu.sliceTo_eq, hv.sliceTo_eq, (hu.trans hv).sliceTo_eq]

/-! ## Reading character by character -/

/-- Looking at the next character and moving on by its length leads from the first cursor to the
second one, where there is no character left, and past the characters given. -/
inductive Walks : Cursor → List Char → Cursor → Prop where
  | done {c : Cursor} : c.peek? = none → Walks c [] c
  | next {c d : Cursor} {x : Char} {cs : List Char} : c.peek? = some x →
      Walks (c.advance x.utf8Size) cs d → Walks c (x :: cs) d

theorem spans_of_peek? {x : Char} (h : c.peek? = some x) : c.Spans [x] (c.advance x.utf8Size) := by
  obtain ⟨before, rest⟩ := c
  obtain ⟨r, rfl⟩ := List.head?_eq_some_iff.1 h
  have hmove := (spans_append before [x] r).advance_eq
  rw [byteLength_cons, byteLength_nil, Nat.add_zero] at hmove
  exact hmove ▸ spans_append before [x] r

theorem walks_iff {cs : List Char} : c.Walks cs d ↔ c.Spans cs d ∧ d.rest = [] := by
  constructor
  · intro h
    induction h with
    | done hpeek => exact ⟨spans_refl _, List.head?_eq_none_iff.1 hpeek⟩
    | next hpeek _ ih => exact ⟨(spans_of_peek? hpeek).trans ih.1, ih.2⟩
  · rintro ⟨hspans, hend⟩
    induction cs generalizing c with
    | nil =>
      obtain rfl := spans_nil_iff.1 hspans
      exact .done (List.head?_eq_none_iff.2 hend)
    | cons x cs ih =>
      obtain ⟨e, hfirst, hothers⟩ := Spans.split (u := [x]) hspans
      have hpeek : c.peek? = some x := by
        rw [peek?, hfirst.rest_eq]
        rfl
      obtain rfl := (spans_of_peek? hpeek).unique hfirst
      exact .next hpeek (ih hothers)

/-- There is one way to read on to the end. -/
theorem exists_walks_iff (c : Cursor) :
    ∃ d : Cursor, d.source = c.source ∧ d.atEnd = true ∧
      ∀ cs e, c.Walks cs e ↔ cs = c.rest ∧ e = d := by
  obtain ⟨d, hd, hend⟩ := exists_spans (List.append_nil c.rest).symm
  refine ⟨d, hd.source_eq, List.isEmpty_iff.2 hend, ?_⟩
  intro cs e
  rw [walks_iff]
  constructor
  · rintro ⟨he, hrest⟩
    obtain rfl : cs = c.rest := by rw [he.rest_eq, hrest, List.append_nil]
    exact ⟨rfl, he.unique hd⟩
  · rintro ⟨rfl, rfl⟩
    exact ⟨hd, hend⟩

/-! ## Every cursor and every count -/

/-- Wherever the cursor is and however many bytes are asked for, moving on leads to the least
boundary that is not in front of that offset, or of the end.  In a text that words of 64 bits can
count, the loop over offsets ends there and never leaves the range of a word.  More bytes lead at
least as far; two moves lead at least as far as one by the sum, and to the same cursor if the first
was neither rounded up nor cut off.  Slices that meet make up the slice between the outer cursors,
and the slice up to a cursor and the rest there make up the rest.  Reading one character after
another ends in one way: all that was still to come has been read, and the text is used up. -/
theorem advance_to_least_boundary (c : Cursor) :
    (∀ n, IsLeast {i | isBoundary (String.ofList c.source) i = true ∧
      min (c.position + n) (byteLength c.source) ≤ i} (c.advance n).position) ∧
    (byteLength c.source < UInt64.size → ∀ n q,
      (c.place.cutOff n).RoundsUp q ↔ q = (c.advance n).place) ∧
    Monotone (fun n => (c.advance n).position) ∧
    (∀ a b, (c.advance (a + b)).position ≤ ((c.advance a).advance b).position ∧
      ((c.advance a).position = c.position + a → (c.advance a).advance b = c.advance (a + b))) ∧
    (∀ y z : Cursor, y.source = c.source → z.source = c.source →
      c.position ≤ y.position → y.position ≤ z.position →
        c.sliceTo y ++ y.sliceTo z = c.sliceTo z ∧ c.sliceTo y ++ y.rest = c.rest) ∧
    ∃ d : Cursor, d.source = c.source ∧ d.atEnd = true ∧
      ∀ cs e, c.Walks cs e ↔ cs = c.rest ∧ e = d := by
  refine ⟨c.isLeast_position_advance, fun hc n q => roundsUp_cutOff_iff hc n,
    c.monotone_position_advance, ?_, ?_, c.exists_walks_iff⟩
  · intro a b
    exact ⟨c.position_advance_add_le a b, fun h => advance_advance h b⟩
  · intro y z hy hz hcy hyz
    exact ⟨sliceTo_append_sliceTo hy hz hcy hyz, sliceTo_append_rest hy hcy⟩

/-- One byte into `é` the cursor comes out behind it; from there the greatest count runs out of the
word and leads to the end.  Moving on by the two bytes of `é` is exact. -/
theorem advance_to_least_boundary_accented :
    ((ofString "é!").place.cutOff 1).RoundsUp ⟨"é!", 2⟩ ∧
    (((ofString "é!").advance 1).place.cutOff Place.maxOffset).RoundsUp ⟨"é!", 3⟩ ∧
    ((ofString "é!").advance 2).advance 1 = (ofString "é!").advance 3 ∧
    (ofString "é!").sliceTo ((ofString "é!").advance 1) ++ ((ofString "é!").advance 1).rest =
      "é!".toList := by
  obtain ⟨-, hloop, -, hmoves, hslices, -⟩ := advance_to_least_boundary (ofString "é!")
  obtain ⟨-, hloop', -, -, -, -⟩ := advance_to_least_boundary ((ofString "é!").advance 1)
  refine ⟨?_, ?_, ?_, ?_⟩
  · exact (hloop (by decide) 1 _).2 (by decide)
  · exact (hloop' (by decide) Place.maxOffset _).2 (by decide)
  · exact (hmoves 2 1).2 (by decide)
  · exact (hslices _ _ (source_advance _ 1) (source_advance _ 1) (by decide) (Nat.le_refl _)).2

end Cursor

end Descent
