/-!
# Fields in order

The fields of an object keep the order in which their keys came first.  Inserting a key that is
already there replaces its value and leaves its place.
-/

namespace Descent.Json

/-- Values by key, in the order in which the keys came. -/
abbrev Fields (α : Type) : Type := List (String × α)

namespace Fields

variable {α : Type}

/-- The keys in order. -/
def keys (fields : Fields α) : List String := fields.map (·.1)

/-- The value of a key. -/
def find? : Fields α → String → Option α
  | [], _ => none
  | (k, v) :: fields, key => if k = key then some v else find? fields key

/-- Gives the key a value: in its place if it is there already, and at the end if it is not. -/
def insert (key : String) (value : α) : Fields α → Fields α
  | [] => [(key, value)]
  | (k, v) :: fields => if k = key then (k, value) :: fields else (k, v) :: insert key value fields

/-- The fields that arise from inserting pairs one after the other. -/
def ofPairs (pairs : List (String × α)) : Fields α :=
  pairs.foldl (fun fields pair => fields.insert pair.1 pair.2) []

/-! ## Look-up and keys -/

theorem find?_insert (key : String) (value : α) (fields : Fields α) (k : String) :
    (fields.insert key value).find? k = if key = k then some value else fields.find? k := by
  induction fields with
  | nil => rfl
  | cons field fields ih =>
    obtain ⟨k', v'⟩ := field
    by_cases h : k' = key <;> by_cases hk : k' = k <;> by_cases hkey : key = k <;>
      simp_all [insert, find?]

theorem keys_insert (key : String) (value : α) (fields : Fields α) :
    (fields.insert key value).keys =
      if key ∈ fields.keys then fields.keys else fields.keys ++ [key] := by
  induction fields with
  | nil => rfl
  | cons field fields ih =>
    obtain ⟨k', v'⟩ := field
    simp only [keys] at ih
    by_cases h : k' = key <;> by_cases hk : key ∈ fields.map (·.1) <;>
      simp_all [insert, keys, eq_comm]

end Fields

end Descent.Json
