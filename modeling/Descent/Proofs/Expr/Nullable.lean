import Descent.Proofs.Expr.Scanner

/-!
# Nullable expressions

Whether an expression may match nothing is told from its form alone.  The form errs on one side
only: an expression that is not nullable reads something whenever it succeeds, so that it may be the
body of a repetition.
-/

namespace Descent.Expr

open Descent.Parser

mutual

/-- Whether the form of an expression allows it to succeed without reading anything. -/
def nullable : Expr → Bool
  | literal text => decide (text = "")
  | pattern q => decide (q.quantifier = .zeroOrMore)
  | stringLiteral | float | integer | json _ | fail _ => false
  | any alternatives => someNullable alternatives
  | sequence steps => allNullable steps
  | many _ | optional _ | pass | position | skip _ | ref _ => true
  | map _ body | traced _ body => nullable body

/-- Whether an expression of a list is nullable. -/
def someNullable : List Expr → Bool
  | [] => false
  | e :: es => nullable e || someNullable es

/-- Whether all expressions of a list are nullable. -/
def allNullable : List Expr → Bool
  | [] => true
  | e :: es => nullable e && allNullable es

end

theorem someNullable_eq_false_iff {es : List Expr} :
    someNullable es = false ↔ ∀ e ∈ es, e.nullable = false := by
  induction es with
  | nil => simp [someNullable]
  | cons e es ih => simp [someNullable, ih]

theorem allNullable_eq_false_iff {es : List Expr} :
    allNullable es = false ↔ ∃ e ∈ es, e.nullable = false := by
  induction es with
  | nil => simp [allNullable]
  | cons e es ih =>
    rw [allNullable, Bool.and_eq_false_iff, ih]
    simp

variable {refs : String → Parser Id Datum} {leaf body : Expr → Prop} {e : Expr}

/-- What combinators build from scanners and rules only moves forward. -/
theorem Built.forward (he : Built IsLeaf body e) : Forward (e.parser refs) := by
  induction he with
  | leaf h =>
    rcases h.cases with ⟨s, hs⟩ | ⟨rule, rfl⟩
    · rw [parser_eq_of_scanner? hs]
      exact s.forward
    · exact rule.forward.map _
  | any _ ih =>
    rw [Expr.parser, parsers_eq_map]
    exact Forward.any (List.forall_mem_map.2 ih)
  | sequence _ ih =>
    rw [Expr.parser, parsers_eq_map]
    exact (Forward.sequence (List.forall_mem_map.2 ih)).map _
  | many _ _ ih => exact ih.many.map _
  | optional _ ih => exact ih.optional.map _
  | map f _ ih => exact ih.map f

theorem progresses_leaf (he : IsLeaf e) (hn : e.nullable = false) : e.Progresses refs := by
  cases e with
  | literal text => exact Advances.map (advances_literal (of_decide_eq_false hn)) _
  | pattern q =>
    refine Advances.map (advances_pattern ?_) _
    cases hq : q.quantifier with
    | zeroOrMore => exact absurd hq (of_decide_eq_false hn)
    | oneOrMore => rfl
  | stringLiteral => exact Advances.map Json.advances_stringLiteral _
  | float => exact Advances.map (Json.advances_converted rfl _) _
  | integer => exact Advances.map (Json.advances_converted rfl _) _
  | json rule => exact Advances.map rule.advances _
  | _ => exact he.elim

/-- An expression that is not nullable reads something whenever it succeeds. -/
theorem Built.progresses (he : Built IsLeaf body e) (hn : e.nullable = false) :
    e.Progresses refs := by
  induction he with
  | leaf h => exact progresses_leaf h hn
  | any _ ih =>
    rw [nullable, someNullable_eq_false_iff] at hn
    rw [Progresses, Expr.parser, parsers_eq_map]
    exact Advances.any (List.forall_mem_map.2 fun e he => ih e he (hn e he))
  | sequence hes ih =>
    rw [nullable, allNullable_eq_false_iff] at hn
    obtain ⟨e, he, hn⟩ := hn
    rw [Progresses, Expr.parser, parsers_eq_map]
    refine Advances.map (Advances.sequence (List.forall_mem_map.2 fun e he => (hes e he).forward)
      ⟨e.parser refs, List.mem_map_of_mem he, ih e he hn⟩) _
  | many _ _ _ => cases hn
  | optional _ _ => cases hn
  | map f _ ih => exact Advances.map (ih hn) f

/-- Repetitions of what is not nullable are repetitions of what reads something. -/
theorem Built.of_nullable (he : Built IsLeaf (·.nullable = false) e) :
    Built IsLeaf (Progresses refs) e := by
  induction he with
  | leaf h => exact .leaf h
  | any _ ih => exact .any ih
  | sequence _ ih => exact .sequence ih
  | many he hn ih => exact .many ih (he.progresses hn)
  | optional _ ih => exact .optional ih
  | map f _ ih => exact .map f ih

end Descent.Expr
