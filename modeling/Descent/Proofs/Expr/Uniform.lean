import Descent.Proofs.Expr.Safety
import Descent.Proofs.Parser.Uniform

/-!
# The place of a text in a longer one

Scanners, rules and what combinators build from them are uniform: it makes no difference to them
what was read before they started.  At the start of `b` and at the place of `b` in `a ++ b` they
give the same, except that all places in the outcome are further on by the bytes of `a`.  This is
`Place.run_shifted`, for what the parsers give at cursors and for the runs over bytes.
-/

namespace Descent

open Descent.Text Descent.Parser

namespace Json

/-! ## Scanners -/

theorem uniform_stringLiteral : Uniform stringLiteral := by
  intro a c
  by_cases hquote : c.peek? = some '"'
  · simp only [Parser.run, Id.run, stringLiteral, Cursor.peek?_behind, if_pos hquote,
      Cursor.advance_behind, Cursor.rest_behind]
    rcases readBody? (c.advance 1).rest with - | ⟨content, body⟩ <;> rfl
  · rw [run_stringLiteral_of_head?_ne hquote]
    exact run_stringLiteral_of_head?_ne (c := c.behind a) hquote

theorem uniform_converted (q : Pattern) (what : String) : Uniform (converted q what) := by
  intro a c
  rw [run_converted_eq, run_converted_eq, uniform_pattern q a c]
  rcases (pattern q).run c with failure | ⟨w, next⟩
  · rfl
  · simp only [Outcome.behind]
    rcases Binary64.ofChars? w with - | x <;> rfl

theorem uniform_number : Uniform number := by
  intro a c
  have hfloat : float.run (c.behind a) = Outcome.behind a (float.run c) :=
    uniform_converted _ _ a c
  rcases h : float.run c with failure | ⟨x, next⟩
  · rw [h] at hfloat
    have hexpectation : (failure.behind a).expectation = failure.expectation := by
      cases failure <;> rfl
    rw [run_number_of_error h, run_number_of_error hfloat, hexpectation]
    split
    · rfl
    · exact (uniform_converted _ _).map _ a c
  · rw [h] at hfloat
    rw [run_number_of_ok h, run_number_of_ok hfloat]
    rfl

/-! ## Rules -/

theorem uniform_string : Uniform string := uniform_stringLiteral.map _

theorem uniform_boolean : Uniform boolean := by
  refine (Uniform.any fun p hp => ?_).map _
  rcases List.mem_pair.1 hp with rfl | rfl
  · exact uniform_literal "true"
  · exact uniform_literal "false"

theorem uniform_null : Uniform null := (uniform_literal "null").map _

theorem uniform_primitive : Uniform primitive := by
  refine Uniform.any fun p hp => ?_
  simp only [List.mem_cons, List.not_mem_nil, or_false] at hp
  rcases hp with rfl | rfl | rfl | rfl
  · exact uniform_number
  · exact uniform_boolean
  · exact uniform_string
  · exact uniform_null

theorem uniform_whiteSpace : Uniform whiteSpace := uniform_pattern _

theorem uniform_optionalComma : Uniform optionalComma := (uniform_literal ",").optional

section Containers

variable {p : Parser Id Value}

theorem uniform_element (hp : Uniform p) : Uniform (element p) :=
  uniform_whiteSpace.bind fun _ => hp.bind fun item => uniform_whiteSpace.bind fun _ =>
    uniform_optionalComma.bind fun _ => uniform_pure item

theorem uniform_field (hp : Uniform p) : Uniform (field p) :=
  uniform_whiteSpace.bind fun _ => uniform_stringLiteral.bind fun key =>
    uniform_whiteSpace.bind fun _ => (uniform_literal ":").bind fun _ =>
      uniform_whiteSpace.bind fun _ => hp.bind fun item => uniform_whiteSpace.bind fun _ =>
        uniform_optionalComma.bind fun _ => uniform_pure (String.ofList key, item)

theorem uniform_arrayOf (hp : Uniform p) : Uniform (arrayOf p) :=
  (uniform_literal "[").bind fun _ => (uniform_element hp).many.bind fun items =>
    (uniform_literal "]").bind fun _ => uniform_pure (Value.array items)

theorem uniform_objectOf (hp : Uniform p) : Uniform (objectOf p) :=
  (uniform_literal "\x7b").bind fun _ => (uniform_field hp).many.bind fun fields =>
    (uniform_literal "\x7d").bind fun _ => uniform_pure (Value.object (Fields.ofPairs fields))

theorem uniform_valueOf (hp : Uniform p) : Uniform (valueOf p) := by
  refine Uniform.any fun q hq => ?_
  simp only [List.mem_cons, List.not_mem_nil, or_false] at hq
  rcases hq with rfl | rfl | rfl
  · exact uniform_objectOf hp
  · exact uniform_arrayOf hp
  · exact uniform_primitive

end Containers

theorem uniform_value : Uniform value := uniform_recursive uniform_valueOf

/-- What was read before a rule makes no difference to it. -/
theorem Rule.uniform (rule : Rule) : Uniform rule.parser := by
  cases rule with
  | number => exact uniform_number
  | string => exact uniform_string
  | boolean => exact uniform_boolean
  | null => exact uniform_null
  | primitive => exact uniform_primitive
  | array => exact uniform_arrayOf uniform_value
  | object => exact uniform_objectOf uniform_value
  | value => exact uniform_value

end Json

/-! ## Expressions -/

theorem Scanner.uniform (s : Scanner) : Uniform s.parser := by
  cases s with
  | literal text => exact (uniform_literal text).map _
  | pattern q => exact (uniform_pattern q).map _
  | stringLiteral => exact Json.uniform_stringLiteral.map _
  | float => exact (Json.uniform_converted _ _).map _
  | integer => exact (Json.uniform_converted _ _).map _
  | number => exact Json.uniform_number.map _

variable {refs : String → Parser Id Datum} {body : Expr → Prop} {e : Expr}

/-- What was read before makes no difference to what combinators build from scanners and rules. -/
theorem Expr.Built.uniform (he : Expr.Built Expr.IsLeaf body e) : Uniform (e.parser refs) := by
  induction he with
  | leaf h =>
    rcases h.cases with ⟨s, hs⟩ | ⟨rule, rfl⟩
    · rw [Expr.parser_eq_of_scanner? hs]
      exact s.uniform
    · exact rule.uniform.map _
  | any _ ih =>
    rw [Expr.parser, Expr.parsers_eq_map]
    exact Uniform.any (List.forall_mem_map.2 ih)
  | sequence _ ih =>
    rw [Expr.parser, Expr.parsers_eq_map]
    exact (Uniform.sequence (List.forall_mem_map.2 ih)).map _
  | many _ _ ih => exact ih.many.map _
  | optional _ ih => exact ih.optional.map _
  | map f _ ih => exact ih.map f

namespace Place

/-- Two outcomes of the same kind, with the same value or the same expectation, and the second one
with its place a number of bytes further on. -/
inductive Shifted {α : Type} (n : Nat) : Found α → Found α → Prop where
  | ok {v : α} {p q : Place} : q.offset = p.offset + n → Shifted n (.ok (v, p)) (.ok (v, q))
  | expected {what : String} {p q : Place} : q.offset = p.offset + n →
      Shifted n (.error (.expected what p)) (.error (.expected what q))
  | noneMatched {p q : Place} : q.offset = p.offset + n →
      Shifted n (.error (.noneMatched p)) (.error (.noneMatched q))

theorem shifted_behind {α : Type} (a : List Char) (o : Outcome α) :
    Shifted (byteLength a) (located o) (located (Outcome.behind a o)) := by
  rcases o with failure | ⟨v, next⟩
  · cases failure with
    | expected what c => exact .expected (Cursor.position_behind a c)
    | noneMatched c => exact .noneMatched (Cursor.position_behind a c)
  · exact .ok (Cursor.position_behind a next)

/-- A parser gives the same for a text on its own and for the text behind another one, with every
place further on by the bytes of that.  So do its runs over bytes, which end with what it gives. -/
theorem run_shifted (he : Expr.Built Expr.IsLeaf (Expr.Progresses refs) e) (a b : String) :
    ∃ o o' : Found Datum, Shifted a.utf8ByteSize o o' ∧
      located ((e.parser refs).run (.ofString b)) = o ∧
      located ((e.parser refs).run ((Cursor.ofString (a ++ b)).advance a.utf8ByteSize)) = o' ∧
      ((a ++ b).utf8ByteSize < UInt64.size →
        (∃ calls, machine.Ends e ⟨b, 0⟩ calls o) ∧
        ∃ calls, machine.Ends e (advance ⟨a ++ b, 0⟩ a.utf8ByteSize) calls o') := by
  refine ⟨_, _, ?_, rfl, rfl, fun hsize => ⟨?_, ?_⟩⟩
  · rw [Cursor.advance_ofString_append, he.uniform, ← byteLength_toList]
    exact shifted_behind a.toList _
  · rw [← Cursor.place_ofString]
    refine ends_place ?_ he
    rw [String.utf8ByteSize_append] at hsize
    rw [Cursor.ofString, Cursor.source_start, byteLength_toList]
    omega
  · have hsource : byteLength (Cursor.ofString (a ++ b)).source < UInt64.size := by
      rwa [Cursor.ofString, Cursor.source_start, byteLength_toList]
    rw [← Cursor.place_ofString, Cursor.advance_place hsource]
    refine ends_place ?_ he
    rwa [Cursor.source_advance]

/-- An unfinished string behind `é`, which takes two bytes: the missing quote is missed at the end
of the text. -/
theorem run_shifted_unfinished :
    Expr.Built Expr.IsLeaf (Expr.Progresses fun _ => Parser.fail "a rule")
      (.sequence [.stringLiteral, .literal ","]) ∧
    (∃ calls, machine.Ends (.sequence [.stringLiteral, .literal ","]) ⟨"\"x", 0⟩ calls
      (.error (.expected "closing quote" ⟨"\"x", 2⟩))) ∧
    ∃ calls, machine.Ends (.sequence [.stringLiteral, .literal ","]) (advance ⟨"é\"x", 0⟩ 2) calls
      (.error (.expected "closing quote" ⟨"é\"x", 4⟩)) := by
  have hbuilt : Expr.Built Expr.IsLeaf (Expr.Progresses fun _ => Parser.fail "a rule")
      (.sequence [.stringLiteral, .literal ","]) :=
    .sequence_leaves (by simp [Expr.IsLeaf])
  obtain ⟨o, o', -, rfl, rfl, hends⟩ := run_shifted hbuilt "é" "\"x"
  obtain ⟨halone, hbehind⟩ := hends (by decide)
  exact ⟨hbuilt, halone, hbehind⟩

end Place

end Descent
