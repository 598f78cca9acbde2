import Descent.Expr.Basic

/-!
# Grammars

A grammar gives names to expressions, which may refer to each other and to themselves.  A rule that
comes to itself again has to have read something in between, so between two readings every rule
occurs at most once, and the number of characters left bounds the number of readings.
-/

namespace Descent

/-- Expressions by name. -/
abbrev Grammar : Type := List (String × Expr)

namespace Grammar

variable {m : Type → Type} [Monad m] [Record Visit m]

/-- The parser of a named rule, with references nested at most `n` deep.  A name without a rule
matches nothing. -/
def rule (grammar : Grammar) : Nat → String → Parser m Datum
  | 0, _ => fun c => pure (.error (.noneMatched c))
  | n + 1, name => fun c =>
    match grammar.lookup name with
    | some e => e.parser (grammar.rule n) c
    | none => pure (.error (.noneMatched c))

/-- The parser that an expression describes when its names refer to the rules of the grammar. -/
def parser (grammar : Grammar) (e : Expr) : Parser m Datum := fun c =>
  e.parser (grammar.rule ((c.rest.length + 1) * (grammar.length + 1))) c

end Grammar

end Descent
