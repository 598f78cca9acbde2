import Descent.Json.Value
import Descent.Proofs.Json.Fields

/-!
# Values and their parts

Facts about a value are proved for its parts first (`Value.induct`).  A value equals what is left of
it without its numbers that are not finite only if there are none (`equal_finitePart_iff`), as long
as no object in it has a key twice.
-/

namespace Descent.Json

namespace Value

/-- Values are proved to have a property if containers have it whose parts have it. -/
theorem induct {P : Value → Prop} (null : P null) (bool : ∀ b, P (bool b))
    (number : ∀ x, P (number x)) (string : ∀ content, P (string content))
    (array : ∀ items, (∀ item ∈ items, P item) → P (array items))
    (object : ∀ fields, (∀ field ∈ fields, P field.2) → P (object fields)) (v : Value) : P v := by
  refine @Value.rec P (fun items => ∀ item ∈ items, P item)
    (fun fields => ∀ field ∈ fields, P field.2) (fun field => P field.2)
    null bool number string array object ?_ ?_ ?_ ?_ ?_ v
  · exact fun _ h => absurd h List.not_mem_nil
  · exact fun item items hitem hitems => List.forall_mem_cons.2 ⟨hitem, hitems⟩
  · exact fun _ h => absurd h List.not_mem_nil
  · exact fun field fields hfield hfields => List.forall_mem_cons.2 ⟨hfield, hfields⟩
  · exact fun _ _ h => h

/-! ## Parts -/

/-- The value is the other one or stands anywhere inside it. -/
inductive Within (part : Value) : Value → Prop where
  | refl : Within part part
  | item {items : List Value} {item : Value} : item ∈ items → Within part item →
      Within part (.array items)
  | field {fields : List (String × Value)} {field : String × Value} : field ∈ fields →
      Within part field.2 → Within part (.object fields)

/-- No object in the value has a key twice. -/
def DistinctKeys (v : Value) : Prop :=
  ∀ fields, (object fields).Within v → (Fields.keys fields).Nodup

/-- Every number in the value is finite. -/
def AllFinite (v : Value) : Prop := ∀ x, (number x).Within v → x.isFinite = true

variable {items : List Value} {fields : List (String × Value)}

theorem distinctKeys_of_no_parts {v : Value} (ha : v.array? = none) (ho : v.object? = none) :
    DistinctKeys v := by
  intro fields h
  cases h with
  | refl => cases ho
  | item _ _ => cases ha
  | field _ _ => cases ho

theorem distinctKeys_array_iff :
    DistinctKeys (array items) ↔ ∀ item ∈ items, DistinctKeys item := by
  constructor
  · exact fun h item hitem fields hfields => h fields (.item hitem hfields)
  · rintro h fields hfields
    cases hfields with
    | item hitem hfields => exact h _ hitem fields hfields

theorem distinctKeys_object_iff : DistinctKeys (object fields) ↔
    (Fields.keys fields).Nodup ∧ ∀ field ∈ fields, DistinctKeys field.2 := by
  constructor
  · exact fun h => ⟨h fields .refl, fun field hfield fields' hfields' =>
      h fields' (.field hfield hfields')⟩
  · rintro ⟨hkeys, h⟩ fields' hfields'
    cases hfields' with
    | refl => exact hkeys
    | field hfield hfields' => exact h _ hfield fields' hfields'

section Numbers

variable {P : Binary64 → Prop}

theorem forall_within_of_no_parts {v : Value} (hn : v.number? = none) (ha : v.array? = none)
    (ho : v.object? = none) : ∀ x, (number x).Within v → P x := by
  intro x h
  cases h with
  | refl => cases hn
  | item _ _ => cases ha
  | field _ _ => cases ho

theorem forall_within_number_iff {x : Binary64} :
    (∀ y, (number y).Within (number x) → P y) ↔ P x := by
  constructor
  · exact fun h => h x .refl
  · rintro h y hy
    cases hy
    exact h

theorem forall_within_array_iff : (∀ x, (number x).Within (array items) → P x) ↔
    ∀ item ∈ items, ∀ x, (number x).Within item → P x := by
  constructor
  · exact fun h item hitem x hx => h x (.item hitem hx)
  · rintro h x hx
    cases hx with
    | item hitem hx => exact h _ hitem x hx

theorem forall_within_object_iff : (∀ x, (number x).Within (object fields) → P x) ↔
    ∀ field ∈ fields, ∀ x, (number x).Within field.2 → P x := by
  constructor
  · exact fun h field hfield x hx => h x (.field hfield hx)
  · rintro h x hx
    cases hx with
    | field hfield hx => exact h _ hfield x hx

end Numbers

theorem allFinite_number_iff {x : Binary64} : AllFinite (number x) ↔ x.isFinite = true :=
  forall_within_number_iff

theorem allFinite_array_iff : AllFinite (array items) ↔ ∀ item ∈ items, AllFinite item :=
  forall_within_array_iff

theorem allFinite_object_iff : AllFinite (object fields) ↔ ∀ field ∈ fields, AllFinite field.2 :=
  forall_within_object_iff

/-! ## Values without numbers that are not finite -/

mutual

/-- The value with null in the place of every number that is not finite. -/
def finitePart : Value → Value
  | null => null
  | bool b => bool b
  | number x => if x.isFinite then number x else null
  | string content => string content
  | array items => array (finiteItems items)
  | object fields => object (finiteFields fields)

/-- The items with null in the place of every number that is not finite. -/
def finiteItems : List Value → List Value
  | [] => []
  | item :: items => item.finitePart :: finiteItems items

/-- The fields with null in the place of every number that is not finite. -/
def finiteFields : List (String × Value) → List (String × Value)
  | [] => []
  | (key, value) :: fields => (key, value.finitePart) :: finiteFields fields

end

theorem finiteItems_eq (items : List Value) : finiteItems items = items.map finitePart := by
  induction items with
  | nil => rfl
  | cons item items ih => rw [finiteItems, ih, List.map_cons]

theorem finiteFields_eq (fields : List (String × Value)) :
    finiteFields fields = fields.map fun field => (field.1, field.2.finitePart) := by
  induction fields with
  | nil => rfl
  | cons field fields ih => rw [finiteFields, ih, List.map_cons]

theorem keys_finiteFields (fields : List (String × Value)) :
    Fields.keys (finiteFields fields) = Fields.keys fields := by
  rw [finiteFields_eq, Fields.keys, List.map_map]
  rfl

/-! ## Equality -/

theorem equalItems_map_iff {f : Value → Value} (items : List Value) :
    equalItems (items.map f) items = true ↔ ∀ item ∈ items, (f item).equal item = true := by
  induction items with
  | nil => simp [equalItems]
  | cons item items ih => simp [equalItems, ih]

/-- Fields are looked up where they are, if no key comes twice. -/
theorem equalFields_map_iff {f : Value → Value} {others : List (String × Value)}
    (hothers : (Fields.keys others).Nodup) (hmem : ∀ field ∈ fields, field ∈ others) :
    equalFields (fields.map fun field => (field.1, f field.2)) others = true ↔
      ∀ field ∈ fields, (f field.2).equal field.2 = true := by
  induction fields with
  | nil => simp [equalFields]
  | cons field fields ih =>
    rw [List.forall_mem_cons] at hmem ⊢
    simp only [List.map_cons, equalFields, Fields.find?_of_mem hothers hmem.1, Bool.and_eq_true,
      ih hmem.2]

theorem equal_number_self {x : Binary64} (hx : x.isFinite = true) : x.equal x = true := by
  have hnan : x.isNaN = false := decide_eq_false (Nat.lt_asymm (of_decide_eq_true hx))
  simp [Binary64.equal, hnan]

/-- The rest of a value equals the value if nothing was taken out of it, and only then. -/
theorem equal_finitePart_iff (v : Value) (h : v.DistinctKeys) :
    v.finitePart.equal v = true ↔ v.AllFinite := by
  induction v using Value.induct with
  | null => exact iff_of_true rfl (forall_within_of_no_parts rfl rfl rfl)
  | bool b =>
    exact iff_of_true (by simp [finitePart, equal]) (forall_within_of_no_parts rfl rfl rfl)
  | string content =>
    exact iff_of_true (by simp [finitePart, equal]) (forall_within_of_no_parts rfl rfl rfl)
  | number x =>
    rw [allFinite_number_iff, finitePart]
    split
    · next hx => exact iff_of_true (equal_number_self hx) hx
    · next hx => exact iff_of_false Bool.false_ne_true hx
  | array items ih =>
    rw [allFinite_array_iff, finitePart, equal, finiteItems_eq, equalItems_map_iff]
    rw [distinctKeys_array_iff] at h
    exact forall₂_congr fun item hitem => ih item hitem (h item hitem)
  | object fields ih =>
    rw [distinctKeys_object_iff] at h
    rw [allFinite_object_iff, finitePart, equal, finiteFields_eq, List.length_map, beq_self_eq_true,
      Bool.true_and, equalFields_map_iff h.1 fun _ hfield => hfield]
    exact forall₂_congr fun field hfield => ih field hfield (h.2 field hfield)

end Value

end Descent.Json
