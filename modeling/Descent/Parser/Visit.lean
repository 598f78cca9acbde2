import Descent.Parser.Basic
import Descent.Record

/-!
# Visits

`traced` records one visit for each run of a parser: the tag, where the run started, and how and
where it ended.  A visit stays in the record when the attempt it belongs to is given up.
-/

namespace Descent

/-- A run of a tagged parser. -/
structure Visit where
  tag : String
  /-- The position at which the run started. -/
  start : Nat
  /-- Whether the parser succeeded. -/
  succeeded : Bool
  /-- The position behind what was read, or the position of the failure. -/
  stop : Nat
deriving DecidableEq

/-- The visit that a run from a cursor amounts to. -/
def Visit.of {α : Type} (tag : String) (c : Cursor) : Outcome α → Visit
  | .ok (_, next) => ⟨tag, c.position, true, next.position⟩
  | .error failure => ⟨tag, c.position, false, failure.position⟩

/-- Runs the parser, records the visit, and changes nothing else. -/
def Parser.traced {m : Type → Type} [Monad m] [Record Visit m] {α : Type} (tag : String)
    (p : Parser m α) : Parser m α := fun c => do
  let outcome ← p c
  Record.record (Visit.of tag c outcome)
  pure outcome

end Descent
