import Descent.Proofs.Json.StringLiteral

/-!
# Inside and outside of string literals

Which characters of a text lie in string literals can be told without reading any value: a quote
opens a literal, and the next quote that no backslash takes closes it.  `Quoting` is all that has to
be known about the characters before a place for that, and `marked` tells it for each character.
-/

namespace Descent.Json

open Descent.Text

/-- Where a character stands with regard to string literals. -/
inductive Quoting where
  /-- Not in a literal, or at its opening quote. -/
  | outside
  /-- In a literal. -/
  | inside
  /-- In a literal and behind a backslash that takes the character. -/
  | escaped
deriving DecidableEq

namespace Quoting

/-- Where the character behind another one stands. -/
def next : Quoting → Char → Quoting
  | outside, c => if c = '"' then inside else outside
  | inside, c => if c = '"' then outside else if c = '\\' then escaped else inside
  | escaped, _ => inside

/-- Where the character behind a text stands. -/
def after (q : Quoting) (t : List Char) : Quoting := t.foldl next q

/-- The characters of a text with where each of them stands. -/
def marked : Quoting → List Char → List (Quoting × Char)
  | _, [] => []
  | q, c :: t => (q, c) :: marked (q.next c) t

variable {q : Quoting} {c : Char} {u v content : List Char}

theorem after_cons (q : Quoting) (c : Char) (t : List Char) :
    q.after (c :: t) = (q.next c).after t := rfl

theorem after_append (q : Quoting) (u v : List Char) : q.after (u ++ v) = (q.after u).after v :=
  List.foldl_append

theorem marked_append (q : Quoting) (u v : List Char) :
    marked q (u ++ v) = marked q u ++ marked (q.after u) v := by
  induction u generalizing q with
  | nil => rfl
  | cons c u ih => rw [List.cons_append, marked, ih, marked, after_cons, List.cons_append]

theorem next_outside (h : c ≠ '"') : outside.next c = outside := if_neg h

theorem next_inside (hq : c ≠ '"') (hb : c ≠ '\\') : inside.next c = inside := by
  rw [next, if_neg hq, if_neg hb]

/-! ## Words without quotes -/

theorem after_outside (h : All (· != '"') u) : outside.after u = outside := by
  induction u with
  | nil => rfl
  | cons c u ih =>
    obtain ⟨hc, hu⟩ := all_cons_iff.1 h
    rw [after_cons, next_outside (ne_of_beq_false (by simpa using hc)), ih hu]

theorem marked_outside (h : All (· != '"') u) : marked outside u = u.map (outside, ·) := by
  induction u with
  | nil => rfl
  | cons c u ih =>
    obtain ⟨hc, hu⟩ := all_cons_iff.1 h
    rw [marked, next_outside (ne_of_beq_false (by simpa using hc)), ih hu, List.map_cons]

/-! ## Literals -/

/-- What stands between the quotes of a literal does not end it. -/
theorem after_inside (h : Unescapes u content) : inside.after u = inside := by
  induction h with
  | nil => rfl
  | plain hq hb _ ih => rw [after_cons, next_inside hq hb, ih]
  | escaped c _ ih => exact ih

theorem after_enquote (h : Unescapes u content) : outside.after (enquote u) = outside := by
  rw [enquote, after_cons, after_append]
  change (inside.after u).after ['"'] = outside
  rw [after_inside h]
  rfl

/-- The quotes of a literal and what stands between them. -/
theorem marked_enquote (h : Unescapes u content) :
    marked outside (enquote u) = (outside, '"') :: (marked inside u ++ [(inside, '"')]) := by
  rw [enquote, marked, marked_append]
  change _ :: (marked inside u ++ marked (inside.after u) ['"']) = _
  rw [after_inside h]
  rfl

theorem ne_outside_of_mem_marked (h : Unescapes u content) :
    ∀ m ∈ marked inside u, m.1 ≠ outside := by
  induction h with
  | nil => exact List.forall_mem_nil _
  | plain hq hb _ ih =>
    rw [marked, next_inside hq hb]
    exact List.forall_mem_cons.2 ⟨by simp, ih⟩
  | escaped c _ ih =>
    exact List.forall_mem_cons.2 ⟨by simp, List.forall_mem_cons.2 ⟨by simp [next], ih⟩⟩

end Quoting

end Descent.Json
