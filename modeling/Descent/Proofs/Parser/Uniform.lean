import Descent.Parser.Literal
import Descent.Parser.Many
import Descent.Parser.Pattern
import Descent.Parser.Recursion
import Descent.Parser.Sequence
import Descent.Proofs.Text.Boundary

/-!
# Parsers that do not look back

`c.behind a` is the cursor `c` with the text `a` put in front of everything read before it.  A
parser is uniform if it does the same there, with the cursors it gives put behind `a` too.  Every
combinator keeps this.
-/

namespace Descent

open Text

namespace Cursor

/-- The cursor with more text in front of its own. -/
def behind (a : List Char) (c : Cursor) : Cursor := ⟨c.before ++ a.reverse, c.rest⟩

variable (a : List Char) (c : Cursor)

@[simp] theorem rest_behind : (c.behind a).rest = c.rest := rfl

@[simp] theorem peek?_behind : (c.behind a).peek? = c.peek? := rfl

@[simp] theorem position_behind : (c.behind a).position = c.position + byteLength a := by
  simp [position, behind]

@[simp] theorem advance_behind (n : Nat) : (c.behind a).advance n = (c.advance n).behind a := by
  simp [advance, behind]

/-- Moving over the first of two strings leads to the start of the second one, behind the first. -/
theorem advance_ofString_append (a b : String) :
    (ofString (a ++ b)).advance a.utf8ByteSize = (ofString b).behind a.toList := by
  rw [ofString, start, String.toList_append, ← byteLength_toList, advance_byteLength]
  simp [behind, ofString, start]

end Cursor

/-- The failure with more text in front of it. -/
def Failure.behind (a : List Char) : Failure → Failure
  | .expected what c => .expected what (c.behind a)
  | .noneMatched c => .noneMatched (c.behind a)

/-- The outcome with more text in front of its cursor. -/
def Outcome.behind {α : Type} (a : List Char) : Outcome α → Outcome α
  | .ok (v, next) => .ok (v, next.behind a)
  | .error failure => .error (failure.behind a)

namespace Parser

variable {α β : Type} {p : Parser Id α} {f : α → Parser Id β} {ps : List (Parser Id α)}

/-- What was read before the parser started makes no difference. -/
def Uniform (p : Parser Id α) : Prop :=
  ∀ (a : List Char) (c : Cursor), p.run (c.behind a) = Outcome.behind a (p.run c)

/-! ## Single steps -/

theorem uniform_pure (v : α) : Uniform (pure v : Parser Id α) := fun _ _ => rfl

theorem uniform_literal (text : String) : Uniform (literal text) := by
  intro a c
  by_cases hprefix : text.toList <+: c.rest
  · obtain ⟨r, hr⟩ := hprefix
    obtain ⟨b, t⟩ := c
    obtain rfl : text.toList ++ r = t := hr
    rw [run_literal]
    refine (run_literal text (b ++ a.reverse) r).trans ?_
    simp [Outcome.behind, Cursor.behind]
  · rw [run_literal_of_not_isPrefix hprefix]
    exact run_literal_of_not_isPrefix (c := c.behind a) hprefix

theorem uniform_pattern (q : Pattern) : Uniform (pattern q) := by
  intro a c
  have hmatched : q.matched (c.behind a) = q.matched c := rfl
  by_cases hshort : (q.matched c).length < q.quantifier.least
  · simp only [Parser.run, Id.run, pattern, hmatched, if_pos hshort]
    rfl
  · simp only [Parser.run, Id.run, pattern, hmatched, if_neg hshort, Cursor.advance_behind]
    rfl

/-! ## Combinators -/

theorem Uniform.bind (hp : Uniform p) (hf : ∀ v, Uniform (f v)) : Uniform (p >>= f) := by
  intro a c
  rw [run_bind, run_bind, hp a c]
  rcases p.run c with failure | ⟨v, next⟩
  · rfl
  · exact hf v a next

theorem Uniform.map (hp : Uniform p) (g : α → β) : Uniform (g <$> p) :=
  hp.bind fun v => uniform_pure (g v)

theorem Uniform.any (h : ∀ p ∈ ps, Uniform p) : Uniform (any ps) := by
  intro a c
  induction ps with
  | nil => rfl
  | cons p ps ih =>
    rw [List.forall_mem_cons] at h
    rw [run_any_cons, run_any_cons, h.1 a c]
    rcases p.run c with failure | ⟨v, next⟩
    · exact ih h.2
    · rfl

theorem Uniform.optional (hp : Uniform p) : Uniform p.optional := by
  intro a c
  rw [run_optional, run_optional, hp a c]
  rcases p.run c with failure | ⟨v, next⟩ <;> rfl

theorem Uniform.sequence (h : ∀ p ∈ ps, Uniform p) : Uniform (sequence ps) := by
  induction ps with
  | nil => exact uniform_pure []
  | cons p ps ih =>
    rw [List.forall_mem_cons] at h
    exact h.1.bind fun v => (ih h.2).map (v :: ·)

theorem Uniform.manyUpTo (hp : Uniform p) (n : Nat) : Uniform (manyUpTo p n) := by
  induction n with
  | zero => exact uniform_pure []
  | succ n ih =>
    refine hp.optional.bind fun o => ?_
    cases o with
    | none => exact uniform_pure []
    | some v => exact ih.map (v :: ·)

theorem Uniform.many (hp : Uniform p) : Uniform (many p) :=
  fun a c => hp.manyUpTo (c.rest.length + 1) a c

theorem uniform_unroll {body : Parser Id α → Parser Id α}
    (h : ∀ {p}, Uniform p → Uniform (body p)) (n : Nat) : Uniform (unroll body n) := by
  induction n with
  | zero => exact fun _ _ => rfl
  | succ n ih => exact h ih

/-- A recursive parser is uniform if its body keeps this. -/
theorem uniform_recursive {body : Parser Id α → Parser Id α}
    (h : ∀ {p}, Uniform p → Uniform (body p)) : Uniform (recursive body) :=
  fun a c => uniform_unroll h (c.rest.length + 1) a c

end Parser

end Descent
