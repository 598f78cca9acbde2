import Descent.Parser.Basic

/-!
# Choice

`any` tries alternatives in order, all from the same cursor, and commits to the first one that
matches.  `optional` gives `none` where its parser fails.  Neither lets a failure of an attempt
through: `any` only reports that nothing matched, and `optional` never fails.
-/

namespace Descent.Parser

variable {m : Type → Type} [Monad m] {α : Type}

/-- The first alternative that matches. -/
def any : List (Parser m α) → Parser m α
  | [] => fun c => pure (.error (.noneMatched c))
  | p :: ps => fun c => do
    match ← p c with
    | .ok success => pure (.ok success)
    | .error _ => any ps c

/-- What the parser reads, or nothing where it fails. -/
def optional (p : Parser m α) : Parser m (Option α) := fun c => do
  match ← p c with
  | .ok (a, next) => pure (.ok (some a, next))
  | .error _ => pure (.ok (none, c))

/-! ## Runs of parsers that only read -/

section Run

variable {α : Type}

@[simp] theorem run_any_nil (c : Cursor) :
    run (any ([] : List (Parser Id α))) c = .error (.noneMatched c) := rfl

theorem run_any_cons (p : Parser Id α) (ps : List (Parser Id α)) (c : Cursor) :
    run (any (p :: ps)) c =
      match p.run c with
      | .ok success => .ok success
      | .error _ => (any ps).run c := by
  change (match p.run c with
    | .ok success => pure (.ok success)
    | .error _ => any ps c : Id (Outcome α)) = _
  cases p.run c <;> rfl

theorem run_optional (p : Parser Id α) (c : Cursor) :
    run p.optional c =
      match p.run c with
      | .ok (a, next) => .ok (some a, next)
      | .error _ => .ok (none, c) := by
  change (match p.run c with
    | .ok (a, next) => pure (.ok (some a, next))
    | .error _ => pure (.ok (none, c)) : Id (Outcome (Option α))) = _
  cases p.run c <;> rfl

end Run

end Descent.Parser
