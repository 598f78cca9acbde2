import Descent.Parser.Basic

/-!
# Recursion

A rule that contains itself is given by its body, a function of the parser that stands for the
inner occurrences.  `recursive` ties the knot: as long as the body reads something before it comes
to an inner occurrence, the inner occurrences are nested at most as deep as there are characters
left.
-/

namespace Descent.Parser

variable {m : Type → Type} [Monad m] {α : Type}

/-- The body nested `n` deep.  Deeper occurrences fail. -/
def unroll (body : Parser m α → Parser m α) : Nat → Parser m α
  | 0 => fun c => pure (.error (.noneMatched c))
  | n + 1 => fun c => body (unroll body n) c

/-- The parser that is its own body with itself for the inner occurrences.  The body has to read
something before each of them. -/
def recursive (body : Parser m α → Parser m α) : Parser m α := fun c =>
  unroll body (c.rest.length + 1) c

/-! ## The fixed point -/

/-- What the body does at a cursor depends only on what the inner parser does further on. -/
def Guarded (body : Parser m α → Parser m α) : Prop :=
  ∀ {p q : Parser m α} {c : Cursor},
    (∀ c' : Cursor, c'.rest.length < c.rest.length → p c' = q c') → body p c = body q c

theorem unroll_eq {body : Parser m α → Parser m α} (h : Guarded body) {n k : Nat} {c : Cursor}
    (hn : c.rest.length < n) (hk : c.rest.length < k) :
    unroll body n c = unroll body k c := by
  induction n generalizing k c with
  | zero => omega
  | succ n ih =>
    obtain ⟨k, rfl⟩ : ∃ j, k = j + 1 := ⟨k - 1, by omega⟩
    exact h fun c' hc' => ih (by omega) (by omega)

/-- The recursive parser is its own body. -/
theorem recursive_eq {body : Parser m α → Parser m α} (h : Guarded body) :
    recursive body = body (recursive body) := by
  funext c
  exact h fun c' hc' => unroll_eq h (by omega) (by omega)

end Descent.Parser
