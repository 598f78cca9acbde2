import Descent.Proofs.Json.Grammar
import Descent.Proofs.Parser.Forward

/-!
# The rules of the grammar move forward

Each rule of the grammar only moves forward, on success and on failure, and reads something whenever
it succeeds.  The same holds of an element of an array and of a field of an object, whose parts may
all be empty but one.
-/

namespace Descent.Json

open Descent.Text Descent.Parser

/-! ## Scanners -/

theorem run_stringLiteral_of_head?_ne {c : Cursor} (h : c.peek? ≠ some '"') :
    stringLiteral.run c = .error (.expected (quoted "\"") c) :=
  if_neg h

theorem forward_stringLiteral : Forward stringLiteral := by
  refine Reads.forward (fun n => reads_stringLiteral) fun {c failure} h => ?_
  by_cases hq : c.peek? = some '"'
  · obtain ⟨b, t⟩ := c
    obtain ⟨t, rfl⟩ : ∃ t', t = '"' :: t' := List.head?_eq_some_iff.1 hq
    rw [run_stringLiteral] at h
    rcases ht : readBody? t with - | ⟨content, body⟩
    · rw [ht] at h
      cases h
      refine ⟨'"' :: t, ?_⟩
      have hend := Cursor.advance_byteLength ('"' :: b) t []
      rw [List.append_nil] at hend
      simp only [Failure.cursor, hend]
      exact ⟨by simp, by simp⟩
    · rw [ht] at h
      cases h
  · rw [run_stringLiteral_of_head?_ne hq] at h
    cases h
    exact ⟨[], c.spans_refl⟩

theorem run_converted_eq (q : Pattern) (what : String) (c : Cursor) :
    (converted q what).run c =
      match (pattern q).run c with
      | .error failure => .error failure
      | .ok (w, next) =>
        match Binary64.ofChars? w with
        | some x => .ok (x, next)
        | none => .error (.expected what c) :=
  rfl

theorem run_converted_eq_ok_iff {q : Pattern} {what : String} {c next : Cursor} {x : Binary64} :
    (converted q what).run c = .ok (x, next) ↔
      ∃ w, (pattern q).run c = .ok (w, next) ∧ Binary64.ofChars? w = some x := by
  rw [run_converted_eq]
  rcases (pattern q).run c with failure | ⟨w, next'⟩
  · simp
  · rcases hx : Binary64.ofChars? w with - | x' <;> simp [hx, and_comm]

theorem run_converted_eq_error_iff {q : Pattern} {what : String} {c : Cursor} {failure : Failure} :
    (converted q what).run c = .error failure ↔
      (pattern q).run c = .error failure ∨
        ∃ w next, (pattern q).run c = .ok (w, next) ∧ Binary64.ofChars? w = none ∧
          failure = .expected what c := by
  rw [run_converted_eq]
  rcases (pattern q).run c with failure' | ⟨w, next⟩
  · simp
  · rcases hx : Binary64.ofChars? w with - | x <;> simp [hx, eq_comm]

theorem forward_converted (q : Pattern) (what : String) : Forward (converted q what) where
  spans_of_ok h := by
    obtain ⟨w, hw, -⟩ := run_converted_eq_ok_iff.1 h
    exact (forward_pattern q).spans_of_ok hw
  spans_of_error {c failure} h := by
    rcases run_converted_eq_error_iff.1 h with h | ⟨-, -, -, -, rfl⟩
    · exact (forward_pattern q).spans_of_error h
    · exact ⟨[], c.spans_refl⟩

theorem advances_converted {q : Pattern} (hq : q.quantifier = .oneOrMore) (what : String) :
    (converted q what).Advances := by
  intro c x next h
  obtain ⟨w, hw, -⟩ := run_converted_eq_ok_iff.1 h
  exact advances_pattern hq hw

theorem advances_stringLiteral : stringLiteral.Advances :=
  Reads.advances (fun _ => reads_stringLiteral) beginsIn_literals.proper

theorem forward_number : Forward number := by
  refine Reads.forward (fun n => reads_number) fun {c failure} h => ?_
  obtain ⟨b, t⟩ := c
  obtain ⟨w, r, rfl, hrun⟩ := exists_isRun isNumeric t
  rw [run_number hrun] at h
  split at h
  · cases h
    exact ⟨[], Cursor.spans_refl _⟩
  · rcases hx : Binary64.ofChars? w with - | x
    · rw [hx] at h
      cases h
      exact ⟨[], Cursor.spans_refl _⟩
    · rw [hx] at h
      cases h

/-! ## Values without parts -/

theorem forward_string : Forward string := forward_stringLiteral.map _

theorem forward_boolean : Forward boolean := by
  refine (Forward.any fun p hp => ?_).map _
  rcases List.mem_pair.1 hp with rfl | rfl
  · exact forward_literal "true"
  · exact forward_literal "false"

theorem forward_null : Forward null := (forward_literal "null").map _

theorem forward_primitive : Forward primitive := by
  refine Forward.any fun p hp => ?_
  simp only [List.mem_cons, List.not_mem_nil, or_false] at hp
  rcases hp with rfl | rfl | rfl | rfl
  · exact forward_number
  · exact forward_boolean
  · exact forward_string
  · exact forward_null

/-! ## Containers -/

theorem forward_value : Forward value := by
  refine Reads.forward (fun n => reads_value) fun {c failure} h => ?_
  obtain rfl := eq_noneMatched_of_run_value h
  exact ⟨[], c.spans_refl⟩

theorem forward_whiteSpace : Forward whiteSpace := forward_pattern _

theorem forward_optionalComma : Forward optionalComma := (forward_literal ",").optional

theorem forward_element {p : Parser Id Value} (hp : Forward p) : Forward (element p) :=
  forward_whiteSpace.bind fun _ => hp.bind fun item => forward_whiteSpace.bind fun _ =>
    forward_optionalComma.bind fun _ => forward_pure item

theorem forward_field {p : Parser Id Value} (hp : Forward p) : Forward (field p) :=
  forward_whiteSpace.bind fun _ => forward_stringLiteral.bind fun key =>
    forward_whiteSpace.bind fun _ => (forward_literal ":").bind fun _ =>
      forward_whiteSpace.bind fun _ => hp.bind fun item => forward_whiteSpace.bind fun _ =>
        forward_optionalComma.bind fun _ => forward_pure (String.ofList key, item)

theorem forward_array : Forward array :=
  (forward_literal "[").bind fun _ => (forward_element forward_value).many.bind fun items =>
    (forward_literal "]").bind fun _ => forward_pure (Value.array items)

theorem forward_object : Forward object :=
  (forward_literal "\x7b").bind fun _ => (forward_field forward_value).many.bind fun fields =>
    (forward_literal "\x7d").bind fun _ => forward_pure (Value.object (Fields.ofPairs fields))

/-- Every rule only moves forward. -/
theorem Rule.forward (rule : Rule) : Forward rule.parser := by
  cases rule with
  | number => exact forward_number
  | string => exact forward_string
  | boolean => exact forward_boolean
  | null => exact forward_null
  | primitive => exact forward_primitive
  | array => exact forward_array
  | object => exact forward_object
  | value => exact forward_value

/-! ## Reading something -/

theorem advances_value : value.Advances :=
  Reads.advances (fun _ => reads_value) beginsIn_spells.proper

/-- An element of an array reads something, for the value in it does. -/
theorem advances_element : (element value).Advances :=
  Reads.advances (fun _ => reads_entry reads_value apart_spells)
    fun _ _ _ h => h.ne_nil apart_spells

/-- A field of an object reads something, for its key does. -/
theorem advances_field : (field value).Advances := by
  rw [field_eq]
  exact Reads.advances
    (fun _ => reads_entry (reads_keyed reads_value apart_spells) (apart_keyed Spells))
    fun _ _ _ h => h.ne_nil (apart_keyed Spells)

theorem advances_array : array.Advances := by
  have hopener : (literal "[").Advances := advances_literal (by decide)
  have hrest := fun _ : List Char => (forward_element forward_value).many.bind fun items =>
    (forward_literal "]").bind fun _ => forward_pure (Value.array items)
  intro c v next h
  exact hopener.bind hrest h

theorem advances_object : object.Advances := by
  have hopener : (literal "\x7b").Advances := advances_literal (by decide)
  have hrest := fun _ : List Char => (forward_field forward_value).many.bind fun fields =>
    (forward_literal "\x7d").bind fun _ => forward_pure (Value.object (Fields.ofPairs fields))
  intro c v next h
  exact hopener.bind hrest h

/-- Every rule reads something whenever it succeeds. -/
theorem Rule.advances (rule : Rule) : rule.parser.Advances := by
  cases rule with
  | number => exact Reads.advances (fun _ => reads_number) (beginsIn_numbers.map _).proper
  | string => exact Reads.advances (fun _ => reads_string) beginsIn_strings.proper
  | boolean => exact Reads.advances (fun _ => reads_boolean) beginsIn_booleans.proper
  | null => exact Reads.advances (fun _ => reads_null) beginsIn_nulls.proper
  | primitive => exact Reads.advances (fun _ => reads_primitive) beginsIn_primitives.proper
  | array => exact advances_array
  | object => exact advances_object
  | value => exact advances_value

end Descent.Json
