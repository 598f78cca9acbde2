import Descent.Proofs.Json.Document
import Descent.Proofs.Json.Lookahead

/-!
# What a reading reports

The two ways to read a text, as a value with anything behind it and as a value that makes up the
whole text, agree: the second one gives the value of the first one where only white space is left,
and otherwise names the first character that is neither read nor white space.  Each of them notes
one thing inside its span, and what it notes is what it returns.
-/

namespace Descent.Json

open Descent.Text Descent.Parser

/-! ## Notices -/

/-- What a call returns, and the signals that a listener hears meanwhile. -/
def listen (call : Recording Signal (Except Failure Value)) :
    Except Failure Value × Array Signal :=
  call.collect

/-- The place and the expectation that a notice of a failure names. -/
def Notice.failure? : Notice → Option (Nat × String)
  | invalid position expected => some (position, expected)
  | invalidDocument position expected => some (position, expected)
  | _ => none

/-- What is noted about the reading of a value. -/
def Notice.ofParse : Outcome Value → Notice
  | .ok (_, next) => .parsed next.position
  | .error failure => .invalid failure.position failure.expectation

/-- What is noted about the reading of a document. -/
def Notice.ofParseComplete : Outcome Value → Notice
  | .ok _ => .parsedComplete
  | .error failure => .invalidDocument failure.position failure.expectation

/-- The signals of a call: one notice inside a span, at the level for failures exactly if the call
fails, and then with the place and the expectation of the failure. -/
structure Reports (span : String) (text : String) (result : Except Failure Value)
    (signals : Array Signal) (notice : Notice) : Prop where
  signals_eq :
    signals = #[.opened span (byteLength text.toList), .entered, .noted notice, .exited]
  debug_iff : notice.level = .debug ↔ ∃ failure, result = .error failure
  failure?_eq_some_iff : ∀ position expected, notice.failure? = some (position, expected) ↔
    ∃ failure, result = .error failure ∧ position = failure.position ∧
      expected = failure.expectation

theorem listen_parse (text : String) :
    listen (parse text) =
      ((value.run (.ofString text)).map (·.1),
        #[.opened "parse" (byteLength text.toList), .entered,
          .noted (.ofParse (value.run (.ofString text))), .exited]) := by
  unfold parse
  rcases value.run (.ofString text) with failure | ⟨read, next⟩ <;> rfl

theorem listen_parseComplete (text : String) :
    listen (parseComplete text) =
      ((document.run (.ofString text)).map (·.1),
        #[.opened "parse_complete" (byteLength text.toList), .entered,
          .noted (.ofParseComplete (document.run (.ofString text))), .exited]) := by
  unfold parseComplete
  rcases document.run (.ofString text) with failure | ⟨read, next⟩ <;> rfl

theorem reports_parse (text : String) :
    Reports "parse" text (listen (parse text)).1 (listen (parse text)).2
      (.ofParse (value.run (.ofString text))) := by
  rw [listen_parse]
  rcases value.run (.ofString text) with failure | ⟨read, next⟩
  · refine ⟨rfl, ?_, fun position expected => ?_⟩ <;>
      simp [Notice.ofParse, Notice.level, Notice.failure?, Except.map, eq_comm]
  · refine ⟨rfl, ?_, fun position expected => ?_⟩ <;>
      simp [Notice.ofParse, Notice.level, Notice.failure?, Except.map]

theorem reports_parseComplete (text : String) :
    Reports "parse_complete" text (listen (parseComplete text)).1
      (listen (parseComplete text)).2
      (.ofParseComplete (document.run (.ofString text))) := by
  rw [listen_parseComplete]
  rcases document.run (.ofString text) with failure | success
  · refine ⟨rfl, ?_, fun position expected => ?_⟩ <;>
      simp [Notice.ofParseComplete, Notice.level, Notice.failure?, Except.map, eq_comm]
  · refine ⟨rfl, ?_, fun position expected => ?_⟩ <;>
      simp [Notice.ofParseComplete, Notice.level, Notice.failure?, Except.map]

/-! ## What is left behind a value -/

theorem stops_of_stops_append {p : Char → Bool} {u s : List Char} (h : Stops p (u ++ s)) :
    Stops p u := by
  cases u with
  | nil => exact stops_nil p
  | cons c u => exact stops_cons_iff.2 (stops_cons_iff.1 h)

/-- A value stays the same if the text breaks off behind it. -/
theorem Spells.of_append {w u s : List Char} {v : Value} (h : Spells w v (u ++ s)) :
    Spells w v u :=
  continues_spells h stops_of_stops_append

theorem run_document_of_error {c : Cursor} {failure : Failure} (h : value.run c = .error failure) :
    document.run c = .error failure := by
  unfold document
  rw [run_bind, h]

/-- Behind a value all the white space is read, and then the text has to end. -/
theorem run_document_of_ok {c : Cursor} {v : Value} {b x r : List Char}
    (h : value.run c = .ok (v, ⟨b, x ++ r⟩)) (hx : IsRun isWhiteSpace x r) :
    document.run c =
      if r = [] then .ok (v, ⟨x.reverse ++ b, r⟩)
      else .error (.expected "end of input" ⟨x.reverse ++ b, r⟩) := by
  have hwhite : whiteSpace.run ⟨b, x ++ r⟩ = .ok (x, ⟨x.reverse ++ b, r⟩) :=
    run_pattern .whiteSpace hx
  unfold document
  simp only [run_bind, h, hwhite, run_endOfInput, Cursor.atEnd, List.isEmpty_iff, run_pure]
  by_cases hr : r = [] <;> simp [hr]

/-- Where a value is read, what is left behind it starts with all the white space there is. -/
theorem exists_of_run_value {text : String} {v : Value} {next : Cursor}
    (h : value.run (.ofString text) = .ok (v, next)) :
    ∃ w x r, text.toList = w ++ (x ++ r) ∧ w ≠ [] ∧ Spells w v (x ++ r) ∧
      IsRun isWhiteSpace x r ∧ next = ⟨w.reverse, x ++ r⟩ := by
  obtain ⟨w, hs, hw⟩ := run_value_eq_ok_iff.1 h
  obtain ⟨b, r⟩ := next
  obtain ⟨x, r, rfl, hx⟩ := exists_isRun isWhiteSpace r
  have hb : b = w.reverse := by simpa [Cursor.ofString, Cursor.start] using hs.before_eq
  exact ⟨w, x, r, hs.rest_eq, beginsIn_spells.proper hw, hw, hx, by rw [hb]⟩

/-! ## The two ways to read a text -/

theorem listen_parse_eq_error_iff {text : String} {failure : Failure} :
    (listen (parse text)).1 = .error failure ↔
      value.run (.ofString text) = .error failure := by
  rw [listen_parse]
  rcases value.run (.ofString text) with failure' | ⟨v, next⟩ <;> simp [Except.map]

theorem listen_parse_eq_ok_iff {text : String} {v : Value} :
    (listen (parse text)).1 = .ok v ↔ ∃ next, value.run (.ofString text) = .ok (v, next) := by
  rw [listen_parse]
  rcases value.run (.ofString text) with failure | ⟨v', next⟩ <;> simp [Except.map]

/-- A value with white space behind it is a document. -/
theorem listen_parseComplete_of_spells {w x : List Char} {v : Value} (hw : Spells w v x)
    (hx : Blank x) : (listen (parseComplete (String.ofList (w ++ x)))).1 = .ok v := by
  have h := parseComplete_eq_ok_iff.2 ⟨w, x, String.toList_ofList, hw, hx⟩
  rw [run_parseComplete] at h
  rw [listen_parseComplete]
  exact h

/-- If no value comes first, both ways of reading say so at the start of the text.  If one does, the
text up to its end, which the first way notes, is a document; the whole text is one if only white
space is left; and if more is left, the second way fails behind that white space, and the text
before the failure is a document.  Either way the one thing noted inside the span is how the call
ended. -/
theorem parse_agrees_with_parseComplete (text : String) :
    (∀ failure, (listen (parse text)).1 = .error failure →
      failure = .noneMatched (.ofString text) ∧ failure.position = 0 ∧
        (listen (parseComplete text)).1 = .error failure) ∧
    (∀ v, (listen (parse text)).1 = .ok v →
      ∃ read left : List Char, text.toList = read ++ left ∧
        .noted (.parsed (byteLength read)) ∈ (listen (parse text)).2 ∧
        0 < byteLength read ∧
        (listen (parseComplete (String.ofList read))).1 = .ok v ∧
        ((listen (parseComplete text)).1 = .ok v ↔ Blank left) ∧
        (¬ Blank left → ∃ blanks c after, left = blanks ++ c :: after ∧ Blank blanks ∧
          isWhiteSpace c = false ∧
          (∃ failure, (listen (parseComplete text)).1 = .error failure ∧
            failure = .expected "end of input" ⟨(read ++ blanks).reverse, c :: after⟩ ∧
            failure.position = byteLength (read ++ blanks)) ∧
          (listen (parseComplete (String.ofList (read ++ blanks)))).1 = .ok v)) ∧
    (∃ notice, Reports "parse" text (listen (parse text)).1 (listen (parse text)).2 notice) ∧
    ∃ notice, Reports "parse_complete" text (listen (parseComplete text)).1
      (listen (parseComplete text)).2 notice := by
  refine ⟨fun failure h => ?_, fun v h => ?_, ⟨_, reports_parse text⟩,
    ⟨_, reports_parseComplete text⟩⟩
  · have hrun := listen_parse_eq_error_iff.1 h
    obtain rfl := eq_noneMatched_of_run_value hrun
    refine ⟨rfl, rfl, ?_⟩
    rw [listen_parseComplete, run_document_of_error hrun]
    rfl
  · obtain ⟨next, hrun⟩ := listen_parse_eq_ok_iff.1 h
    obtain ⟨w, x, r, htext, hne, hw, hx, rfl⟩ := exists_of_run_value hrun
    have hdocument := run_document_of_ok hrun hx
    rw [listen_parse, hrun, listen_parseComplete text, hdocument]
    refine ⟨w, x ++ r, htext, ?_, ?_, ?_, ?_, fun hblank => ?_⟩
    · simp [Notice.ofParse, Cursor.position]
    · exact Nat.pos_of_ne_zero fun hzero => hne (byteLength_eq_zero_iff.1 hzero)
    · have hshort : Spells w v [] := Spells.of_append (s := x ++ r) hw
      simpa using listen_parseComplete_of_spells hshort (all_nil _)
    · cases r with
      | nil => simpa [Except.map] using hx.1
      | cons c r =>
        have hc := stops_cons_iff.1 hx.2
        refine iff_of_false (by simp [Except.map]) fun hblank => ?_
        rw [(all_cons_iff.1 (all_append_iff.1 hblank).2).1] at hc
        cases hc
    · cases r with
      | nil => exact absurd (by simpa using hx.1) hblank
      | cons c r =>
        refine ⟨x, c, r, rfl, hx.1, stops_cons_iff.1 hx.2, ?_, ?_⟩
        · simp [Except.map, Failure.position, Failure.cursor, Cursor.position, Nat.add_comm]
        · exact listen_parseComplete_of_spells hw.of_append hx.1

end Descent.Json
