import Descent.Proofs.Expr.Nullable
import Descent.Proofs.Parser.Map

/-!
# The rules as expressions

A rule of the grammar is an expression over scanners and other rules.  Its body says which rules it
calls and where; `parser_body` says that running the body is running the rule.
-/

namespace Descent

/-! ## Data -/

namespace Datum

/-- The value in a datum. -/
def value : Datum → Json.Value
  | json v => v
  | _ => .null

/-- The items of a list. -/
def items : Datum → List Datum
  | list ds => ds
  | _ => []

/-- A key and its value. -/
def field (d : Datum) : String × Json.Value := (String.ofList (d.pick 0).concat, (d.pick 1).value)

/-- A datum for a key and its value. -/
def ofField (entry : String × Json.Value) : Datum := .list [.text entry.1.toList, .json entry.2]

@[simp] theorem value_json (v : Json.Value) : value (json v) = v := rfl

@[simp] theorem items_list (ds : List Datum) : items (list ds) = ds := rfl

@[simp] theorem field_ofField (entry : String × Json.Value) : field (ofField entry) = entry := by
  simp [field, ofField, pick, concat]

end Datum

namespace Json

open Descent.Parser

/-! ## The bodies -/

/-- An object, an array or a primitive. -/
def alternatives : Expr := .any [.json .object, .json .array, .json .primitive]

/-- A comma, or nothing. -/
def comma : Expr := .optional (.literal ",")

/-- What an array repeats. -/
def member : Expr :=
  .map (Datum.pick 1)
    (.sequence [.pattern .whiteSpace, alternatives, .pattern .whiteSpace, comma])

/-- What an object repeats. -/
def pair : Expr :=
  .map (fun d => .list [d.pick 1, d.pick 3])
    (.sequence [.pattern .whiteSpace, .stringLiteral,
      .sequence [.pattern .whiteSpace, .literal ":", .pattern .whiteSpace],
      .json .value, .pattern .whiteSpace, comma])

/-- The expression that a rule stands for.  Numbers are cut out and read as a whole: they have
none. -/
def Rule.body? : Rule → Option Expr
  | number => none
  | string => some (.map (fun d => .json (.string (String.ofList d.concat))) .stringLiteral)
  | boolean =>
    some (.map (fun d => .json (.bool (d.concat == "true".toList)))
      (.any [.literal "true", .literal "false"]))
  | null => some (.map (fun _ => .json .null) (.literal "null"))
  | primitive => some (.any [.json .number, .json .boolean, .json .string, .json .null])
  | array =>
    some (.map (fun d => .json (.array ((d.pick 1).items.map Datum.value)))
      (.sequence [.literal "[", .many member, .literal "]"]))
  | object =>
    some (.map (fun d => .json (.object (Fields.ofPairs ((d.pick 1).items.map Datum.field))))
      (.sequence [.literal "\x7b", .many pair, .literal "\x7d"]))
  | value => some alternatives

variable {refs : String → Parser Id Datum}

/-! ## The bodies run as the rules -/

theorem parser_json (rule : Rule) : (Expr.json rule).parser refs = Datum.json <$> rule.parser := rfl

theorem value_eq : value = valueOf value := funext run_value

theorem parser_alternatives : alternatives.parser refs = Datum.json <$> value := by
  rw [value_eq]
  exact any_map Datum.json [object, array, primitive]

theorem parser_comma :
    comma.parser refs = (fun o => Datum.ofOption (o.map .text)) <$> optionalComma := by
  change Datum.ofOption <$> optional (Datum.text <$> literal ",") = _
  rw [optional_map, ← comp_map]
  rfl

theorem parser_member : member.parser refs = Datum.json <$> element value := by
  simp only [member, Expr.parser, Expr.parsers, parser_alternatives, parser_comma, element,
    Parser.sequence, lift_eq, map_eq_pure_bind, bind_assoc, pure_bind]
  rfl

theorem parser_pair : pair.parser refs = Datum.ofField <$> field value := by
  simp only [pair, Expr.parser, Expr.parsers, parser_comma, field, Parser.sequence, lift_eq,
    map_eq_pure_bind, bind_assoc, pure_bind, Datum.ofField, String.toList_ofList]
  rfl

/-- A repetition between two literals, where the data of the repetition stand for its values. -/
theorem parser_enclosed {α : Type} {e : Expr} {p : Parser Id α} {datum : α → Datum}
    (he : e.parser refs = datum <$> p) (opener closer : String) {f : Datum → Datum}
    {build : List α → Value}
    (hf : ∀ a items b, f (.list [a, .list (items.map datum), b]) = .json (build items)) :
    (Expr.map f (.sequence [.literal opener, .many e, .literal closer])).parser refs =
      Datum.json <$> (do
        let _ ← literal opener
        let items ← many p
        let _ ← literal closer
        pure (build items)) := by
  change f <$> Datum.list <$> Parser.sequence [Datum.text <$> literal opener,
    Datum.list <$> many (e.parser refs), Datum.text <$> literal closer] = _
  rw [he, many_map]
  simp only [Parser.sequence, map_eq_pure_bind, bind_assoc, pure_bind, hf]

/-- Running the body of a rule is running the rule. -/
theorem parser_body {rule : Rule} {e : Expr} (h : rule.body? = some e) :
    e.parser refs = (Expr.json rule).parser refs := by
  rw [parser_json]
  cases rule with
  | number => cases h
  | string =>
    cases h
    change _ <$> Datum.text <$> stringLiteral = Datum.json <$> _ <$> stringLiteral
    rw [← comp_map, ← comp_map]
    rfl
  | boolean =>
    cases h
    change _ <$> Parser.any ([literal "true", literal "false"].map (Datum.text <$> ·)) =
      Datum.json <$> _ <$> Parser.any [literal "true", literal "false"]
    rw [any_map, ← comp_map, ← comp_map]
    rfl
  | null =>
    cases h
    change _ <$> Datum.text <$> literal "null" = Datum.json <$> _ <$> literal "null"
    rw [← comp_map, ← comp_map]
    rfl
  | primitive =>
    cases h
    exact any_map Datum.json [number, boolean, string, null]
  | array =>
    cases h
    refine parser_enclosed parser_member "[" "]" fun a vs b => ?_
    change Datum.json (.array ((vs.map Datum.json).map Datum.value)) = _
    simp [Function.comp_def]
  | object =>
    cases h
    refine parser_enclosed parser_pair "\x7b" "\x7d" fun a entries b => ?_
    change Datum.json (.object (Fields.ofPairs ((entries.map Datum.ofField).map Datum.field))) = _
    simp [Function.comp_def]
  | value =>
    cases h
    exact parser_alternatives

/-! ## What is repeated -/

theorem built_alternatives {body : Expr → Prop} : Expr.Built Expr.IsLeaf body alternatives :=
  .any_leaves (by simp [Expr.IsLeaf])

theorem built_comma {body : Expr → Prop} : Expr.Built Expr.IsLeaf body comma :=
  .optional (.leaf trivial)

theorem built_member {body : Expr → Prop} : Expr.Built Expr.IsLeaf body member := by
  refine .map _ (.sequence fun e he => ?_)
  simp only [List.mem_cons, List.not_mem_nil, or_false] at he
  rcases he with rfl | rfl | rfl | rfl
  · exact .leaf trivial
  · exact built_alternatives
  · exact .leaf trivial
  · exact built_comma

theorem built_pair {body : Expr → Prop} : Expr.Built Expr.IsLeaf body pair := by
  refine .map _ (.sequence fun e he => ?_)
  simp only [List.mem_cons, List.not_mem_nil, or_false] at he
  rcases he with rfl | rfl | rfl | rfl | rfl | rfl
  · exact .leaf trivial
  · exact .leaf trivial
  · exact .sequence_leaves (by simp [Expr.IsLeaf])
  · exact .leaf trivial
  · exact .leaf trivial
  · exact built_comma

end Json

end Descent
