/-!
# Records of events

A monad that records events of type `ε` keeps what happened during a computation, in order.  `Id`
lets every event pass unseen, and the monad `Recording ε` keeps them in an array.
-/

namespace Descent

/-- Monads that can take note of events. -/
class Record (ε : Type) (m : Type → Type) where
  /-- Takes note of an event. -/
  record : ε → m Unit

/-- Events pass unseen. -/
instance {ε : Type} : Record ε Id where
  record _ := ()

/-- Computations with a record of events. -/
abbrev Recording (ε : Type) : Type → Type := StateM (Array ε)

/-- Events are added to the record. -/
instance {ε : Type} : Record ε (Recording ε) where
  record event := modify (·.push event)

/-- Runs a computation from an empty record, and gives its value with what it recorded. -/
def Recording.collect {ε α : Type} (act : Recording ε α) : α × Array ε := act.run #[]

end Descent
