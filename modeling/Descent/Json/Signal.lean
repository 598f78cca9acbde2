/-!
# Signals

What the reading of a document reports while it goes on: a span is opened and entered, how the
reading went is noted, and the span is left.  Each signal has a level, so that a listener hears only
what asks for enough attention.
-/

namespace Descent.Json

/-- How much attention a signal asks for, the least first. -/
inductive Level where
  | trace
  | debug
  | info
deriving DecidableEq

/-- Whether somebody who asks for a level hears a signal of another one. -/
def Level.hears : Level → Level → Bool
  | trace, _ => true
  | debug, trace => false
  | debug, _ => true
  | info, level => level = info

/-- What is noted inside a span. -/
inductive Notice where
  /-- A value was read, and so many bytes. -/
  | parsed (consumed : Nat)
  /-- The text does not start with a value. -/
  | invalid (position : Nat) (expected : String)
  /-- The text is a value. -/
  | parsedComplete
  /-- The text is not a value. -/
  | invalidDocument (position : Nat) (expected : String)
deriving DecidableEq

namespace Notice

/-- A notice in words. -/
def message : Notice → String
  | parsed _ => "parsed JSON value"
  | invalid _ _ => "invalid JSON"
  | parsedComplete => "parsed complete JSON document"
  | invalidDocument _ _ => "invalid JSON document"

/-- Failures ask for more attention than successes. -/
def level : Notice → Level
  | parsed _ => .trace
  | invalid _ _ => .debug
  | parsedComplete => .trace
  | invalidDocument _ _ => .debug

end Notice

/-- Something that happens while a document is read. -/
inductive Signal where
  /-- A span is opened for a text of so many bytes. -/
  | opened (span : String) (length : Nat)
  | entered
  | noted (notice : Notice)
  | exited
deriving DecidableEq

/-- The level of a signal. -/
def Signal.level : Signal → Level
  | noted notice => notice.level
  | _ => .trace

end Descent.Json
