import Descent.Failure

/-!
# Parsers

A parser takes a cursor and gives either a value with the cursor behind what it read, or a failure.
It may act in a monad `m` while it runs, which is how a run can be recorded; what it did there
stays done when the attempt is given up.  A parser in `Id` only reads.

Parsers over one monad form a monad: the second parser starts where the first one stopped, and the
first failure ends the run.
-/

namespace Descent

/-- What comes out of a run: a value and the cursor behind it, or a failure. -/
abbrev Outcome (α : Type) : Type := Except Failure (α × Cursor)

/-- A parser for values of type `α` that acts in `m`. -/
def Parser (m : Type → Type) (α : Type) : Type := Cursor → m (Outcome α)

namespace Parser

variable {m : Type → Type} {α β : Type}

/-- Runs a parser that only reads. -/
def run (p : Parser Id α) (c : Cursor) : Outcome α := Id.run (p c)

section Monad

variable [Monad m]

/-- Reads nothing and gives the value. -/
protected def pure (a : α) : Parser m α := fun c => pure (.ok (a, c))

/-- Reads with the first parser and goes on with the second one from there. -/
protected def bind (p : Parser m α) (f : α → Parser m β) : Parser m β := fun c => do
  match ← p c with
  | .ok (a, next) => f a next
  | .error failure => pure (.error failure)

instance : Monad (Parser m) where
  pure := Parser.pure
  bind := Parser.bind

/-- Grouping does not matter, and reading nothing changes nothing. -/
instance [LawfulMonad m] : LawfulMonad (Parser m) := by
  refine LawfulMonad.mk' _ (fun p => ?_) (fun a f => ?_) (fun p f g => ?_)
  · funext c
    refine Eq.trans (bind_congr fun outcome => ?_) (bind_pure (p c))
    rcases outcome with failure | ⟨a, next⟩ <;> rfl
  · funext c
    exact pure_bind _ _
  · funext c
    refine (bind_assoc _ _ _).trans (bind_congr fun outcome => ?_)
    rcases outcome with failure | ⟨a, next⟩
    · exact pure_bind _ _
    · rfl

/-- A parser that only reads, used among parsers that act in `m`. -/
def lift (p : Parser Id α) : Parser m α := fun c => pure (p.run c)

/-- Fails because something else was expected. -/
def fail (what : String) : Parser m α := fun c => pure (.error (.expected what c))

/-- Reads nothing and gives the position. -/
def position : Parser m Nat := fun c => pure (.ok (c.position, c))

/-- Moves on by a number of bytes and gives what it moved over. -/
def skip (n : Nat) : Parser m (List Char) := fun c =>
  let next := c.advance n
  pure (.ok (c.sliceTo next, next))

end Monad

/-! ## Runs of parsers that only read -/

@[simp] theorem run_pure (a : α) (c : Cursor) : run (pure a) c = .ok (a, c) := rfl

theorem run_bind (p : Parser Id α) (f : α → Parser Id β) (c : Cursor) :
    run (p >>= f) c =
      match p.run c with
      | .ok (a, next) => (f a).run next
      | .error failure => .error failure := by
  change (match p.run c with
    | .ok (a, next) => f a next
    | .error failure => pure (.error failure) : Id (Outcome β)) = _
  cases p.run c <;> rfl

theorem run_map (f : α → β) (p : Parser Id α) (c : Cursor) :
    run (f <$> p) c =
      match p.run c with
      | .ok (a, next) => .ok (f a, next)
      | .error failure => .error failure :=
  run_bind p (fun a => pure (f a)) c

@[simp] theorem run_lift (p : Parser Id α) (c : Cursor) : run (lift p) c = p.run c := rfl

@[simp] theorem run_fail (what : String) (c : Cursor) :
    run (fail what : Parser Id α) c = .error (.expected what c) := rfl

end Parser

end Descent
