import Descent.Json.Render
import Descent.Proofs.Json.Document
import Descent.Proofs.Json.Separated
import Descent.Proofs.Json.Value
import Descent.Proofs.Number.Printing

/-!
# Reading what was written

The text of a value is a spelling of its finite part, in front of any text that lets a number end
there.  So it reads back as that, and nothing but the numbers that are not finite is lost.
-/

namespace Descent.Json

open Descent.Text

/-! ## The text as a spelling -/

theorem unescapes_flatMap_escape (content : List Char) :
    Unescapes (content.flatMap escape) content := by
  induction content with
  | nil => exact .nil
  | cons c content ih =>
    rw [List.flatMap_cons, escape]
    split
    · exact .escaped c ih
    · next h =>
      rw [not_or] at h
      exact .plain h.1 h.2 ih

namespace Value

/-- The text of a field. -/
def renderField (field : String × Value) : List Char :=
  quote field.1.toList ++ ':' :: field.2.render

theorem renderItems_eq (items : List Value) :
    renderItems items = separated render items := by
  induction items with
  | nil => rfl
  | cons item items ih =>
    cases items with
    | nil => rw [renderItems, separated_singleton]
    | cons item' items =>
      rw [renderItems, ih, separated_cons_cons]
      simp

theorem renderFields_eq (fields : List (String × Value)) :
    renderFields fields = separated renderField fields := by
  induction fields with
  | nil => rfl
  | cons field fields ih =>
    obtain ⟨key, value⟩ := field
    cases fields with
    | nil => rw [renderFields, separated_singleton, renderField]
    | cons field' fields =>
      rw [renderFields, ih, separated_cons_cons, renderField, List.append_assoc, List.cons_append]
      simp

/-- The text of a value spells its finite part. -/
theorem spells_render (v : Value) : v.DistinctKeys → ∀ r, Stops isNumeric r →
    Spells v.render v.finitePart r := by
  induction v using Value.induct with
  | null => exact fun _ _ _ => .null
  | bool b => exact fun _ _ _ => .bool b
  | string content =>
    intro _ r _
    have hstring := Spells.string (r := r) (unescapes_flatMap_escape content.toList)
    rwa [String.ofList_toList] at hstring
  | number x =>
    intro _ r hr
    rw [render, renderNumber, finitePart]
    split
    · next hx =>
      obtain ⟨d, hd, hround⟩ := Binary64.exists_numeral_toChars hx
      exact .number ⟨⟨all_isNumeric_of_numeral hd, hr⟩, d, hd, hround⟩
    · exact .null
  | array items ih =>
    intro h r _
    rw [distinctKeys_array_iff] at h
    rw [render, finitePart, renderItems_eq, finiteItems_eq]
    exact .array (entries_separated_of_words (by decide) r fun item hitem =>
      ih item hitem (h item hitem))
  | object fields ih =>
    intro h r _
    rw [distinctKeys_object_iff, ← keys_finiteFields] at h
    rw [render, finitePart, ← Fields.ofPairs_of_nodup h.1, renderFields_eq, finiteFields_eq]
    refine .object (entries_separated_of_words (by decide) r fun field hfield r hr => ?_)
    have hkeyed := Keyed.intro (y := []) (z := []) (unescapes_flatMap_escape field.1.toList)
      (all_nil _) (all_nil _) (ih field hfield (h.2 field hfield) r hr)
    rwa [String.ofList_toList] at hkeyed

/-! ## The round trip -/

/-- A number that is not finite is written like the null that stands in its place. -/
theorem render_finitePart (v : Value) : v.finitePart.render = v.render := by
  induction v using Value.induct with
  | null => rfl
  | bool b => rfl
  | string content => rfl
  | number x =>
    rw [finitePart]
    split
    · rfl
    · next hx => rw [render, render, renderNumber, if_neg hx]
  | array items ih =>
    rw [finitePart, render, render, renderItems_eq, renderItems_eq, finiteItems_eq,
      separated_map ih]
  | object fields ih =>
    have hfields : ∀ field ∈ fields,
        renderField (field.1, field.2.finitePart) = renderField field :=
      fun field hfield => by rw [renderField, renderField, ih field hfield]
    rw [finitePart, render, render, renderFields_eq, renderFields_eq, finiteFields_eq,
      separated_map hfields]

end Value

/-- What was written is read completely, with null in the place of every number that is not finite
and nothing else changed.  It is equal to the value if there was no such number, and only then, and
it is written in the same way. -/
theorem parseComplete_toString (v : Value) (h : v.DistinctKeys) :
    Id.run (parseComplete v.toString) = .ok v.finitePart ∧
      (v.finitePart.equal v = true ↔ v.AllFinite) ∧ v.finitePart.toString = v.toString := by
  refine ⟨parseComplete_eq_ok_iff.2 ⟨v.render, [], ?_, ?_, all_nil _⟩,
    v.equal_finitePart_iff h, ?_⟩
  · rw [Value.toString, String.toList_ofList, List.append_nil]
  · exact v.spells_render h [] (stops_nil _)
  · rw [Value.toString, Value.toString, Value.render_finitePart]

/-- An object with the negative zero and an infinity in it loses the infinity and keeps the zero. -/
theorem parseComplete_toString_object :
    let zero : Value := .number ⟨true, 0, by decide⟩
    let infinity : Value := .number ⟨false, Binary64.infinity, by decide⟩
    let fields := [("b", .array [zero, infinity]), ("a", .string "\"")]
    (Value.object fields).DistinctKeys ∧
      Id.run (parseComplete (Value.object fields).toString) =
        .ok (.object [("b", .array [zero, .null]), ("a", .string "\"")]) := by
  intro zero infinity fields
  have hkeys : (Value.object fields).DistinctKeys := by
    simp only [fields, zero, infinity, Value.distinctKeys_object_iff, Value.distinctKeys_array_iff,
      List.forall_mem_cons]
    have hleaf := fun v => @Value.distinctKeys_of_no_parts v
    have hnone := @List.forall_mem_nil
    exact ⟨by decide, ⟨hleaf _ rfl rfl, hleaf _ rfl rfl, hnone _⟩, hleaf _ rfl rfl, hnone _⟩
  exact ⟨hkeys, (parseComplete_toString (.object fields) hkeys).1⟩

end Descent.Json
