import Descent.Proofs.Expr.Scanning

/-!
# Every place is safe

`Place.Reached` are the places that moving on by any number of bytes and successful runs lead to
from the start of a text.  The main statement is `Place.reached_safe`: such a place is in bounds,
and every run from it ends, which over places means that no slice was out of range or off a boundary
and that no move of a scanner was cut off or rounded.
-/

namespace Descent.Place

open Descent.Text Descent.Parser

/-! ## Places of cursors -/

theorem outcome_eq_located (o : Outcome Datum) :
    Machine.outcome (M := machine) Cursor.place Failure.located o = located o := by
  rcases o with failure | ⟨v, next⟩ <;> rfl

/-- The cursors of a text seen as places. -/
def view {text : List Char} (h : byteLength text < UInt64.size) : machine.View text where
  place := Cursor.place
  fault := Failure.located
  fault_noneMatched _ := rfl
  scan_eq s c hc := by
    rw [outcome_eq_located]
    exact scan_place (hc ▸ h) s

variable {refs : String → Parser Id Datum} {text : String} {p : Place} {e : Expr} {c : Cursor}

/-- At the place of a cursor every run ends, and with what the parser gives at the cursor. -/
theorem ends_place (hc : byteLength c.source < UInt64.size)
    (he : Expr.Built Expr.IsLeaf (Expr.Progresses refs) e) :
    ∃ calls, machine.Ends e c.place calls (located ((e.parser refs).run c)) := by
  have hends : (view hc).EndsAt refs e c := Machine.View.endsAt he rfl
  obtain ⟨calls, h⟩ := hends
  rw [view, outcome_eq_located] at h
  exact ⟨calls, h⟩

theorem located_eq_ok_iff {α : Type} {o : Outcome α} {a : α} {q : Place} :
    located o = .ok (a, q) ↔ ∃ next, o = .ok (a, next) ∧ next.place = q := by
  rcases o with failure | ⟨b, next⟩
  · simp [located]
  · simp [located]

theorem located_eq_error_iff {α : Type} {o : Outcome α} {fault : Fault} :
    located o = .error fault ↔ ∃ failure, o = .error failure ∧ failure.located = fault := by
  rcases o with failure | ⟨b, next⟩
  · simp [located]
  · simp [located]

/-! ## Reached places -/

/-- The places reached from the start of a text by moving on any number of bytes and by successful
runs of expressions.  A text in memory has fewer bytes than a word of 64 bits can count. -/
inductive Reached (refs : String → Parser Id Datum) (text : String) : Place → Prop where
  | start : text.utf8ByteSize < UInt64.size → Reached refs text ⟨text, 0⟩
  | advance {p : Place} {n : Nat} : Reached refs text p → n < UInt64.size →
      Reached refs text (p.advance n)
  | run {p next : Place} {e : Expr} {calls : List machine.Call} {v : Datum} : Reached refs text p →
      Expr.Built Expr.IsLeaf (Expr.Progresses refs) e → machine.Ends e p calls (.ok (v, next)) →
      Reached refs text next

theorem Reached.size_lt (h : Reached refs text p) : text.utf8ByteSize < UInt64.size := by
  induction h with
  | start hsize => exact hsize
  | advance _ _ ih => exact ih
  | run _ _ _ ih => exact ih

/-- Every reached place is the place of a cursor of the text. -/
theorem Reached.exists_cursor (h : Reached refs text p) :
    ∃ c : Cursor, c.source = text.toList ∧ p = c.place := by
  have hsize := h.size_lt
  rw [← byteLength_toList] at hsize
  induction h with
  | start _ => exact ⟨.ofString text, rfl, (Cursor.place_ofString text).symm⟩
  | @advance p n _ _ ih =>
    obtain ⟨c, hc, rfl⟩ := ih
    exact ⟨c.advance n, (c.source_advance n).trans hc, Cursor.advance_place (hc ▸ hsize) n⟩
  | run _ he hrun ih =>
    obtain ⟨c, hc, rfl⟩ := ih
    obtain ⟨calls, hends⟩ := ends_place (hc ▸ hsize) he
    obtain ⟨next, hnext, rfl⟩ := located_eq_ok_iff.1 (hrun.unique hends).2.symm
    obtain ⟨w, hw⟩ := he.forward.spans_of_ok hnext
    exact ⟨next, hw.source_eq.trans hc, rfl⟩

/-- What a literal or a pattern gives is what was read. -/
theorem spans_of_terminal (he : e.IsTerminal) {v : Datum} {next : Cursor}
    (h : (e.parser refs).run c = .ok (v, next)) : ∃ w, c.Spans w next ∧ v = .text w := by
  cases e with
  | literal text =>
    have hreads := (reads_literal (n := c.rest.length + 1) text).map Datum.text
    obtain ⟨w, hw, _, rfl, rfl, rfl⟩ := (hreads (Nat.lt_succ_self _)).1 h
    exact ⟨_, hw, rfl⟩
  | pattern q =>
    have hreads := (reads_pattern (n := c.rest.length + 1) q).map Datum.text
    obtain ⟨w, hw, _, rfl, rfl, -⟩ := (hreads (Nat.lt_succ_self _)).1 h
    exact ⟨_, hw, rfl⟩
  | _ => exact he.elim

/-- A place over the same text, in bounds and not before another one. -/
structure Follows (p q : Place) : Prop where
  text_eq : q.text = p.text
  inBounds : q.InBounds
  offset_le : p.offset ≤ q.offset

theorem Follows.of_spans {d : Cursor} {w : List Char} (h : c.Spans w d) :
    c.place.Follows d.place where
  text_eq := by rw [Cursor.place, Cursor.place, h.source_eq]
  inBounds := d.inBounds_place
  offset_le := by
    change c.position ≤ d.position
    rw [h.position_eq]
    exact Nat.le_add_right _ _

/-- Every reached place is in bounds and the place of a cursor, which moves on as the place does.
Every run from it ends, so that no slice taken on the way was out of range or off a boundary and
each move of a scanner was exact.  It ends in one way, with what the parser gives at the cursor: a
success behind the place or at it, and a failure pointing there, both over the same text and in
bounds.  The value of a literal or a pattern is the slice from the place to where it stopped. -/
theorem reached_safe (h : Reached refs text p) :
    p.text = text ∧ p.InBounds ∧ ∃ c : Cursor, c.source = text.toList ∧ p = c.place ∧
      (∀ n, p.advance n = (c.advance n).place) ∧
      ∀ e, Expr.Built Expr.IsLeaf (Expr.Progresses refs) e →
        ∃ calls o, machine.Ends e p calls o ∧
          (∀ {calls' o'}, machine.Ends e p calls' o' → calls' = calls ∧ o' = o) ∧
          o = located ((e.parser refs).run c) ∧
          (∀ v next, o = .ok (v, next) → p.Follows next ∧
            (e.IsTerminal → ∃ w, p.sliceTo? next = some w ∧ v = .text w.toList)) ∧
          (∀ fault, o = .error fault → p.Follows fault.place) := by
  have hsize := h.size_lt
  obtain ⟨c, hc, rfl⟩ := h.exists_cursor
  rw [← byteLength_toList, ← hc] at hsize
  refine ⟨congrArg Place.text (Cursor.place_of_source hc), c.inBounds_place, c, hc, rfl,
    Cursor.advance_place hsize, fun e he => ?_⟩
  obtain ⟨calls, hends⟩ := ends_place hsize he
  refine ⟨calls, _, hends, fun h' => h'.unique hends, rfl, fun v q hq => ?_, fun fault hfault => ?_⟩
  · obtain ⟨next, hnext, rfl⟩ := located_eq_ok_iff.1 hq
    obtain ⟨w, hw⟩ := he.forward.spans_of_ok hnext
    refine ⟨.of_spans hw, fun hterminal => ?_⟩
    obtain ⟨w, hw, rfl⟩ := spans_of_terminal hterminal hnext
    exact ⟨_, hw.sliceTo?_place, by rw [String.toList_ofList]⟩
  · obtain ⟨failure, hfailure, rfl⟩ := located_eq_error_iff.1 hfault
    obtain ⟨w, hw⟩ := he.forward.spans_of_error hfailure
    rw [Failure.place_located]
    exact .of_spans hw

/-- One byte into `é` the place is rounded up behind it, and from there a digit and a comma are read
to the end of the text. -/
theorem reached_safe_accented :
    Reached (fun _ => Parser.fail "a rule") "é1," (advance ⟨"é1,", 0⟩ 1) ∧
    ∃ calls, machine.Ends (.sequence [.pattern .digits, .literal ","]) (advance ⟨"é1,", 0⟩ 1) calls
      (.ok (.list [.text ['1'], .text [',']], ⟨"é1,", 4⟩)) := by
  have hreached : Reached (fun _ => Parser.fail "a rule") "é1," (advance ⟨"é1,", 0⟩ 1) :=
    .advance (.start (by decide)) (by decide)
  obtain ⟨-, -, c, hc, hplace, -, hends⟩ := reached_safe hreached
  have hcursor : c = (Cursor.ofString "é1,").advance 1 := by
    apply Cursor.eq_of_place_eq
    rw [← hplace, ← Cursor.advance_place (by decide), Cursor.place_ofString]
  have hbuilt : Expr.Built Expr.IsLeaf (Expr.Progresses fun _ => Parser.fail "a rule")
      (.sequence [.pattern .digits, .literal ","]) :=
    .sequence_leaves (by simp [Expr.IsLeaf])
  obtain ⟨calls, o, h, -, rfl, -, -⟩ := hends _ hbuilt
  rw [hcursor] at h
  exact ⟨hreached, calls, h⟩

end Descent.Place
