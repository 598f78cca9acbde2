import Descent.Proofs.Expr.Ending
import Descent.Proofs.Json.Document

/-!
# Parsing always ends

Cursors themselves are places of a machine.  A run over them only moves forward, and all that an
array or an object calls is called strictly further on.  The main statement, `parsing_ends`, puts
this together with the form of expressions: what is not nullable reads something, and repetitions of
what is not nullable end, so that reading a text ends, whatever the text.
-/

namespace Descent

open Descent.Parser Descent.Text

namespace Machine

/-! ## Runs over cursors -/

/-- Cursors seen as themselves. -/
def cursorView (text : List Char) : cursors.View text where
  place c := c
  fault failure := failure
  fault_noneMatched _ := rfl
  scan_eq s c _ := by rcases h : s.parser.run c with failure | ⟨v, next⟩ <;> simp [outcome, h]

theorem outcome_id (o : Outcome Datum) :
    outcome (M := cursors) (fun c => c) (fun failure => failure) o = o := by
  rcases o with failure | ⟨v, next⟩ <;> rfl

variable {refs : String → Parser Id Datum} {e : Expr} {c : Cursor} {calls : List cursors.Call}
  {o : Outcome Datum}

/-- Where repetitions are of what is not nullable, every run ends with what the parser gives. -/
theorem ends_run (refs : String → Parser Id Datum)
    (he : Expr.Built Expr.IsLeaf (·.nullable = false) e) (c : Cursor) :
    ∃ calls, cursors.Ends e c calls ((e.parser refs).run c) := by
  have hends : (cursorView c.source).EndsAt refs e c := View.endsAt he.of_nullable rfl
  obtain ⟨calls, h⟩ := hends
  rw [cursorView, outcome_id] at h
  exact ⟨calls, h⟩

/-- A run only moves forward: it calls from no earlier place and stops at none. -/
theorem Ends.spans (h : cursors.Ends e c calls o) :
    Onward (M := cursors) (fun c d : Cursor => ∃ w, c.Spans w d) c calls o := by
  refine h.onward (fun c => ⟨[], c.spans_refl⟩) ?_ ?_
  · rintro c d e ⟨u, hu⟩ ⟨v, hv⟩
    exact ⟨u ++ v, hu.trans hv⟩
  · intro s c v next ho
    exact s.forward.spans_of_ok (Option.some.inj ho)

/-- What follows an opening literal calls strictly further on. -/
theorem Ends.position_lt_of_opener {opener : String} (hopener : opener ≠ "") {es : List Expr}
    (h : cursors.Ends (.sequence (.literal opener :: es)) c calls o) :
    ∀ call ∈ calls, call.2.source = c.source ∧ c.position < call.2.position := by
  rcases h.of_sequence_cons with ⟨fault, h⟩ | ⟨v, next, calls₁, calls₂, o', rfl, hfirst, hrest⟩
  · obtain ⟨rfl, -⟩ := h.of_scanner (s := .literal opener) rfl
    simp
  · obtain ⟨rfl, hscan⟩ := hfirst.of_scanner (s := .literal opener) rfl
    obtain ⟨hsource, hless⟩ := ((forward_literal opener).map Datum.text).position_lt
      (Advances.map (advances_literal hopener) _) (Option.some.inj hscan)
    intro call hcall
    obtain ⟨w, hw⟩ := hrest.spans.calls_le call hcall
    have hposition := hw.position_eq
    exact ⟨hw.source_eq.trans hsource, by omega⟩

/-- All that an array or an object calls is called strictly further on. -/
theorem Ends.position_lt_of_container {rule : Json.Rule} (hrule : rule = .array ∨ rule = .object)
    (h : cursors.Ends (.json rule) c calls o) :
    ∃ later, calls = (rule, c) :: later ∧
      ∀ call ∈ later, call.2.source = c.source ∧ c.position < call.2.position := by
  rcases hrule with rfl | rfl
  · obtain ⟨later, rfl, hbody⟩ := h.of_body rfl
    obtain ⟨o', hparts⟩ := hbody.of_map
    exact ⟨later, rfl, hparts.position_lt_of_opener (by decide)⟩
  · obtain ⟨later, rfl, hbody⟩ := h.of_body rfl
    obtain ⟨o', hparts⟩ := hbody.of_map
    exact ⟨later, rfl, hparts.position_lt_of_opener (by decide)⟩

end Machine

/-! ## Documents -/

namespace Json

/-- A value and the white space behind it. -/
def valueAndSpace : Expr := .sequence [.json .value, .pattern .whiteSpace]

theorem built_valueAndSpace {body : Expr → Prop} : Expr.Built Expr.IsLeaf body valueAndSpace :=
  .sequence_leaves (by simp [Expr.IsLeaf])

theorem run_parse_eq (refs : String → Parser Id Datum) (text : String) :
    Id.run (parse text) = (((Expr.json .value).parser refs).run (.ofString text)).map
      fun success => success.1.value := by
  rw [run_parse, parser_json, run_map, Rule.parser]
  rcases value.run (.ofString text) with failure | ⟨v, next⟩ <;> rfl

theorem run_parseComplete_eq (refs : String → Parser Id Datum) (text : String) :
    Id.run (parseComplete text) =
      match (valueAndSpace.parser refs).run (.ofString text) with
      | .error failure => .error failure
      | .ok (d, next) =>
        if next.atEnd then .ok (d.pick 0).value else .error (.expected "end of input" next) := by
  rw [run_parseComplete]
  unfold document valueAndSpace whiteSpace
  simp only [Expr.parser, Expr.parsers, lift_eq, Rule.parser, run_map, run_sequence_cons,
    run_sequence_nil, run_bind, run_endOfInput]
  rcases value.run (.ofString text) with failure | ⟨v, next⟩
  · rfl
  · dsimp only
    rcases (pattern .whiteSpace).run next with failure | ⟨x, last⟩
    · rfl
    · dsimp only
      cases last.atEnd with
      | true => rfl
      | false => rfl

end Json

/-! ## Every run ends -/

/-- Parsing always ends.
An expression that is not nullable is further on after each success.  An expression in which each
repetition is of one that is not nullable ends at every cursor, in one way, with what its parser
gives.  The elements of arrays and the fields of objects read something.  All that an array or an
object calls is called strictly behind its start.  So both ways to read a text end, whatever the
text. -/
theorem parsing_ends (refs : String → Parser Id Datum) :
    (∀ e, Expr.Built Expr.IsLeaf (fun _ => True) e → e.nullable = false →
      ∀ {c v next}, (e.parser refs).run c = .ok (v, next) →
        next.source = c.source ∧ c.position < next.position) ∧
    (∀ e, Expr.Built Expr.IsLeaf (·.nullable = false) e → ∀ c,
      ∃ calls, Machine.cursors.Ends e c calls ((e.parser refs).run c) ∧
        ∀ {calls' o}, Machine.cursors.Ends e c calls' o →
          calls' = calls ∧ o = (e.parser refs).run c) ∧
    (∀ {c item next}, (Json.element Json.value).run c = .ok (item, next) →
      next.source = c.source ∧ c.position < next.position) ∧
    (∀ {c entry next}, (Json.field Json.value).run c = .ok (entry, next) →
      next.source = c.source ∧ c.position < next.position) ∧
    (∀ {rule : Json.Rule}, rule = .array ∨ rule = .object →
      ∀ {c calls o}, Machine.cursors.Ends (.json rule) c calls o →
        ∃ later, calls = (rule, c) :: later ∧
          ∀ call ∈ later, call.2.source = c.source ∧ c.position < call.2.position) ∧
    (∀ text, ∃ calls o, Machine.cursors.Ends (.json .value) (.ofString text) calls o ∧
      Id.run (Json.parse text) = o.map fun success => success.1.value) ∧
    (∀ text, ∃ calls o, Machine.cursors.Ends Json.valueAndSpace (.ofString text) calls o ∧
      Id.run (Json.parseComplete text) =
        match o with
        | .error failure => .error failure
        | .ok (d, next) =>
          if next.atEnd then .ok (d.pick 0).value else .error (.expected "end of input" next)) := by
  refine ⟨fun e he hn _ _ _ h => he.forward.position_lt (he.progresses hn) h, fun e he c => ?_,
    (Json.forward_element Json.forward_value).position_lt Json.advances_element,
    (Json.forward_field Json.forward_value).position_lt Json.advances_field,
    fun hrule _ _ _ h => h.position_lt_of_container hrule, fun text => ?_, fun text => ?_⟩
  · obtain ⟨calls, h⟩ := Machine.ends_run refs he c
    exact ⟨calls, h, fun h' => h'.unique h⟩
  · obtain ⟨calls, h⟩ := Machine.ends_run refs (e := .json .value) (.leaf trivial) (.ofString text)
    exact ⟨calls, _, h, Json.run_parse_eq refs text⟩
  · obtain ⟨calls, h⟩ := Machine.ends_run refs Json.built_valueAndSpace (.ofString text)
    exact ⟨calls, _, h, Json.run_parseComplete_eq refs text⟩

end Descent
