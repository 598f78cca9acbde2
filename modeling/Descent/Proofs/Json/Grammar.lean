import Descent.Json.Document
import Descent.Proofs.Json.Entries
import Descent.Proofs.Parser.Forward

/-!
# The grammar of values

The rule for values reads the spellings of values: wherever a spelling comes next, it reads exactly
that, and it fails everywhere else.  So a text has at most one value at a place, although its white
space can be shared out in many ways.
-/

namespace Descent.Json

open Descent.Text Descent.Parser

variable {n : Nat}

/-! ## Values without parts -/

/-- Truth values. -/
def booleans : Language Value := fun w v _ =>
  ∃ b : Bool, w = (if b then "true" else "false").toList ∧ v = .bool b

/-- The null value. -/
def nulls : Language Value := (Language.word "null".toList).map fun _ => .null

/-- Strings. -/
def strings : Language Value := literals.map fun content => .string (String.ofList content)

theorem reads_string : Reads n string strings := reads_stringLiteral.map _

theorem reads_null : Reads n null nulls := (reads_literal "null").map _

theorem reads_boolean : Reads n boolean booleans := by
  have hword := (reads_literal (n := n) "true").any_cons_of_beginsIn
    (reads_literal "false").any_singleton (Language.beginsIn_word 't' _)
    (Language.beginsIn_word 'f' _) (by decide)
  refine Reads.congr (hword.map fun word => Value.bool (word == "true".toList))
    fun {w v r} => ⟨?_, ?_⟩
  · rintro ⟨-, rfl, ⟨rfl, rfl⟩ | ⟨rfl, rfl⟩⟩
    · exact ⟨true, rfl, rfl⟩
    · exact ⟨false, rfl, rfl⟩
  · rintro ⟨b, rfl, rfl⟩
    cases b with
    | true => exact ⟨"true".toList, rfl, Or.inl ⟨rfl, rfl⟩⟩
    | false => exact ⟨"false".toList, rfl, Or.inr ⟨rfl, rfl⟩⟩

theorem beginsIn_booleans : booleans.BeginsIn ['t', 'f'] := by
  rintro w v r ⟨b, rfl, -⟩
  cases b with
  | true => exact ⟨'t', by decide, _, rfl⟩
  | false => exact ⟨'f', by decide, _, rfl⟩

theorem beginsIn_strings : strings.BeginsIn ['"'] := beginsIn_literals.map _

theorem beginsIn_nulls : nulls.BeginsIn ['n'] := (Language.beginsIn_word 'n' _).map _

/-- Values without parts. -/
def primitives : Language Value :=
  (numbers.map Value.number).union (booleans.union (strings.union nulls))

theorem beginsIn_primitives : primitives.BeginsIn "0123456789.eE+-tf\"n".toList :=
  (beginsIn_numbers.map _).union (beginsIn_booleans.union (beginsIn_strings.union beginsIn_nulls))

theorem reads_primitive : Reads n primitive primitives := by
  have hstring := reads_string.any_cons_of_beginsIn (n := n) reads_null.any_singleton
    beginsIn_strings beginsIn_nulls (by decide)
  have hstrings := beginsIn_strings.union beginsIn_nulls
  have hboolean := reads_boolean.any_cons_of_beginsIn hstring beginsIn_booleans hstrings (by decide)
  exact reads_number.any_cons_of_beginsIn hboolean (beginsIn_numbers.map _)
    (beginsIn_booleans.union hstrings) (by decide)

/-! ## Values -/

/-- Arrays whose items are words of a language. -/
def arrays (L : Language Value) : Language Value := Enclosed '[' ']' Value.array L

/-- Objects whose fields have words of a language behind their keys. -/
def objects (L : Language Value) : Language Value :=
  Enclosed '{' '}' (fun fields => .object (Fields.ofPairs fields)) (Keyed L)

theorem beginsIn_enclosed {α β : Type} (o close : Char) (f : List α → β) (L : Language α) :
    (Enclosed o close f L).BeginsIn [o] := by
  rintro w b r ⟨u, as, rfl, -, -⟩
  exact ⟨o, List.mem_singleton_self o, _, rfl⟩

/-- A spelling is that of an object, an array or a value without parts. -/
theorem spells_iff {w r : List Char} {v : Value} :
    Spells w v r ↔ (objects Spells).union ((arrays Spells).union primitives) w v r := by
  constructor
  · intro h
    cases h with
    | null => exact Or.inr (Or.inr (Or.inr (Or.inr (Or.inr ⟨_, rfl, rfl, rfl⟩))))
    | bool b => exact Or.inr (Or.inr (Or.inr (Or.inl ⟨b, rfl, rfl⟩)))
    | number h => exact Or.inr (Or.inr (Or.inl ⟨_, rfl, h⟩))
    | string h => exact Or.inr (Or.inr (Or.inr (Or.inr (Or.inl ⟨_, rfl, _, rfl, h⟩))))
    | array h => exact Or.inr (Or.inl ⟨_, _, rfl, rfl, h⟩)
    | object h => exact Or.inl ⟨_, _, rfl, rfl, h⟩
  · rintro (⟨u, fields, rfl, rfl, h⟩ | ⟨u, items, rfl, rfl, h⟩ | ⟨x, rfl, h⟩ | ⟨b, rfl, rfl⟩ |
      ⟨content, rfl, u, rfl, h⟩ | ⟨-, rfl, rfl, -⟩)
    · exact .object h
    · exact .array h
    · exact .number h
    · exact .bool b
    · exact .string h
    · exact .null

theorem reads_objectOf {p : Parser Id Value} (hp : Reads n p Spells) :
    Reads (n + 1) (objectOf p) (objects Spells) := by
  rw [objectOf_eq]
  exact reads_enclosed (reads_keyed hp apart_spells) (apart_keyed Spells) rfl rfl _

theorem reads_arrayOf {p : Parser Id Value} (hp : Reads n p Spells) :
    Reads (n + 1) (arrayOf p) (arrays Spells) := by
  rw [arrayOf_eq]
  exact reads_enclosed hp apart_spells rfl rfl _

/-- If the inner values of shorter texts are read as they are spelled, so are all values. -/
theorem reads_valueOf {p : Parser Id Value} (hp : Reads n p Spells) :
    Reads (n + 1) (valueOf p) Spells := by
  have harray := (reads_arrayOf hp).any_cons_of_beginsIn reads_primitive.any_singleton
    (beginsIn_enclosed '[' _ _ _) beginsIn_primitives (by decide)
  have hobject := (reads_objectOf hp).any_cons_of_beginsIn harray (beginsIn_enclosed '{' _ _ _)
    ((beginsIn_enclosed '[' _ _ _).union beginsIn_primitives) (by decide)
  exact hobject.congr spells_iff.symm

theorem reads_unroll_valueOf : ∀ n, Reads n (unroll valueOf n) Spells
  | 0 => fun _ hc => absurd hc (Nat.not_lt_zero _)
  | n + 1 => reads_valueOf (reads_unroll_valueOf n)

/-- The rule for values reads the spellings of values. -/
theorem reads_value : Reads n value Spells :=
  fun c _ => reads_unroll_valueOf (c.rest.length + 1) (Nat.lt_succ_self _)

/-! ## Failures -/

theorem eq_noneMatched_of_run_value {c : Cursor} {failure : Failure}
    (h : value.run c = .error failure) : failure = .noneMatched c :=
  eq_noneMatched_of_run_any h

theorem run_value_eq_ok_iff {c next : Cursor} {v : Value} :
    value.run c = .ok (v, next) ↔ ∃ w, c.Spans w next ∧ Spells w v next.rest :=
  @reads_value _ c (Nat.lt_succ_self _) v next

theorem run_value_eq_error_iff {c : Cursor} :
    value.run c = .error (.noneMatched c) ↔ ¬ Language.Begins Spells c.rest := by
  rw [← reads_value.exists_error_iff (Nat.lt_succ_self _)]
  constructor
  · exact fun h => ⟨_, h⟩
  · rintro ⟨failure, h⟩
    rw [h, eq_noneMatched_of_run_value h]

/-- The rule for values is its own body. -/
theorem run_value (c : Cursor) : value.run c = (valueOf value).run c := by
  have hvalue : Reads (c.rest.length + 1) value Spells := reads_value
  have hbody := reads_valueOf (reads_value (n := c.rest.length))
  rcases h : (valueOf value).run c with failure | ⟨v, next⟩
  · obtain rfl := eq_noneMatched_of_run_any h
    exact run_value_eq_error_iff.2 ((hbody.exists_error_iff (Nat.lt_succ_self _)).1 ⟨_, h⟩)
  · exact (hvalue (Nat.lt_succ_self _)).2 ((hbody (Nat.lt_succ_self _)).1 h)

/-! ## One value at a place -/

/-- A text has at most one value at a place, and one extent of it. -/
theorem Spells.unique {w w' r r' : List Char} {v v' : Value} (h : Spells w v r)
    (h' : Spells w' v' r') (e : w ++ r = w' ++ r') : w = w' ∧ v = v' :=
  reads_value.unique (Nat.lt_succ_self _) h h' e

/-- A value is spelled between the two cursors. -/
def ValueAt (c : Cursor) (v : Value) (next : Cursor) : Prop :=
  ∃ w, c.Spans w next ∧ Spells w v next.rest

theorem ValueAt.unique {c next next' : Cursor} {v v' : Value} (h : ValueAt c v next)
    (h' : ValueAt c v' next') : v = v' ∧ next = next' := by
  obtain ⟨w, hs, hw⟩ := h
  obtain ⟨w', hs', hw'⟩ := h'
  obtain ⟨rfl, rfl⟩ := hw.unique hw' (hs.rest_eq.symm.trans hs'.rest_eq)
  exact ⟨rfl, hs.unique hs'⟩

/-- The rule for values succeeds exactly where a value is spelled, with that value and the cursor
behind it, and fails where none is.  There is never more than one. -/
theorem run_value_iff_valueAt (c : Cursor) :
    (∀ v next, value.run c = .ok (v, next) ↔ ValueAt c v next) ∧
      ((∃ failure, value.run c = .error failure) ↔ ¬ ∃ v next, ValueAt c v next) ∧
      ∀ v next v' next', ValueAt c v next → ValueAt c v' next' → v = v' ∧ next = next' := by
  refine ⟨fun v next => run_value_eq_ok_iff, ?_, fun v next v' next' => ValueAt.unique⟩
  rw [reads_value.exists_error_iff (Nat.lt_succ_self _), not_iff_not]
  constructor
  · rintro ⟨w, v, r, hr, hw⟩
    obtain ⟨next, hs, rfl⟩ := Cursor.exists_spans hr
    exact ⟨v, next, w, hs, hw⟩
  · rintro ⟨v, next, w, hs, hw⟩
    exact ⟨w, v, next.rest, hs.rest_eq, hw⟩

end Descent.Json
