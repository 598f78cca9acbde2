import Descent.Expr.Basic

/-!
# Expressions built by combinators

Most statements about parser expressions are about those that combinators build from some leaves,
with repetitions of bodies of some kind only.  `Built leaf body` says so, and its induction
principle is the one by which all of them are proved.
-/

namespace Descent.Expr

/-- The expression is built by combinators from leaves of one kind, and the bodies of its
repetitions are of another kind. -/
inductive Built (leaf body : Expr → Prop) : Expr → Prop where
  | leaf {e : Expr} : leaf e → Built leaf body e
  | any {es : List Expr} : (∀ e ∈ es, Built leaf body e) → Built leaf body (.any es)
  | sequence {es : List Expr} : (∀ e ∈ es, Built leaf body e) → Built leaf body (.sequence es)
  | many {e : Expr} : Built leaf body e → body e → Built leaf body (.many e)
  | optional {e : Expr} : Built leaf body e → Built leaf body (.optional e)
  | map {e : Expr} (f : Datum → Datum) : Built leaf body e → Built leaf body (.map f e)

/-- Literals and patterns. -/
def IsTerminal : Expr → Prop
  | literal _ | pattern _ => True
  | _ => False

/-- Literals, patterns, the other scanners and the rules of the grammar of values. -/
def IsLeaf : Expr → Prop
  | literal _ | pattern _ | stringLiteral | float | integer | json _ => True
  | _ => False

/-- The expression reads something whenever it succeeds. -/
def Progresses (refs : String → Parser Id Datum) (e : Expr) : Prop :=
  Parser.Advances (e.parser refs)

theorem Built.any_leaves {leaf body : Expr → Prop} {es : List Expr} (h : ∀ e ∈ es, leaf e) :
    Built leaf body (.any es) :=
  .any fun e he => .leaf (h e he)

theorem Built.sequence_leaves {leaf body : Expr → Prop} {es : List Expr} (h : ∀ e ∈ es, leaf e) :
    Built leaf body (.sequence es) :=
  .sequence fun e he => .leaf (h e he)

theorem Built.mono {leaf leaf' body body' : Expr → Prop} (hleaf : ∀ e, leaf e → leaf' e)
    (hbody : ∀ e, body e → body' e) {e : Expr} (h : Built leaf body e) : Built leaf' body' e := by
  induction h with
  | leaf h => exact .leaf (hleaf _ h)
  | any _ ih => exact .any ih
  | sequence _ ih => exact .sequence ih
  | many _ hb ih => exact .many ih (hbody _ hb)
  | optional _ ih => exact .optional ih
  | map f _ ih => exact .map f ih

end Descent.Expr
