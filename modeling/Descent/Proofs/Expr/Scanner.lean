import Descent.Proofs.Expr.Built
import Descent.Proofs.Json.Forward

/-!
# Scanners

The expressions that read characters and call nothing.  All other leaves of expressions are rules of
the grammar of values.
-/

namespace Descent

open Descent.Parser

/-- What reads characters and calls nothing. -/
inductive Scanner where
  | literal (text : String)
  | pattern (q : Pattern)
  | stringLiteral
  | float
  | integer
  | number

/-- The parser of a scanner. -/
def Scanner.parser : Scanner → Parser Id Datum
  | literal text => .text <$> Parser.literal text
  | pattern q => .text <$> Parser.pattern q
  | stringLiteral => .text <$> Json.stringLiteral
  | float => .float <$> Json.float
  | integer => .float <$> Json.integer
  | number => .json <$> Json.number

/-- The scanner that an expression is, unless it calls something. -/
def Expr.scanner? : Expr → Option Scanner
  | literal text => some (.literal text)
  | pattern q => some (.pattern q)
  | stringLiteral => some .stringLiteral
  | float => some .float
  | integer => some .integer
  | json .number => some .number
  | _ => none

theorem Scanner.forward (s : Scanner) : Forward s.parser := by
  cases s with
  | literal text => exact (forward_literal text).map _
  | pattern q => exact (forward_pattern q).map _
  | stringLiteral => exact Json.forward_stringLiteral.map _
  | float => exact (Json.forward_converted _ _).map _
  | integer => exact (Json.forward_converted _ _).map _
  | number => exact Json.forward_number.map _

theorem Expr.parser_eq_of_scanner? {refs : String → Parser Id Datum} {e : Expr} {s : Scanner}
    (h : e.scanner? = some s) : e.parser refs = s.parser := by
  unfold Expr.scanner? at h
  split at h <;> cases h <;> rfl

/-- A leaf is a scanner or a rule. -/
theorem Expr.IsLeaf.cases {e : Expr} (h : e.IsLeaf) :
    (∃ s, e.scanner? = some s) ∨ ∃ rule, e = .json rule := by
  cases e with
  | literal text => exact .inl ⟨_, rfl⟩
  | pattern q => exact .inl ⟨_, rfl⟩
  | stringLiteral => exact .inl ⟨_, rfl⟩
  | float => exact .inl ⟨_, rfl⟩
  | integer => exact .inl ⟨_, rfl⟩
  | json rule => exact .inr ⟨rule, rfl⟩
  | _ => exact h.elim

end Descent
