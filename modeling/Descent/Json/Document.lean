import Descent.Json.Rules
import Descent.Json.Signal
import Descent.Record

/-!
# Documents

`parse` reads the value that a text starts with, and `parseComplete` a value that makes up the whole
text but for white space at its end.  Both work inside a span and note how the reading went.
-/

namespace Descent.Json

open Descent.Parser Descent.Text

variable {m : Type → Type} [Monad m] [Record Signal m]

/-- Does something about a text inside a span. -/
def inSpan {α : Type} (span : String) (text : String) (act : m α) : m α := do
  Record.record (Signal.opened span (byteLength text.toList))
  Record.record Signal.entered
  let result ← act
  Record.record Signal.exited
  pure result

/-- Reads the value at the start of a text.  What comes after it does not matter. -/
def parse (text : String) : m (Except Failure Value) := inSpan "parse" text do
  match value.run (.ofString text) with
  | .ok (read, next) =>
    Record.record (Signal.noted (.parsed next.position))
    pure (.ok read)
  | .error failure =>
    Record.record (Signal.noted (.invalid failure.position failure.expectation))
    pure (.error failure)

/-- Fails where something other than the end of the text comes next. -/
def endOfInput : Parser Id Unit := fun c =>
  if c.atEnd then .ok ((), c) else .error (.expected "end of input" c)

/-- A value with nothing but white space behind it. -/
def document : Parser Id Value := do
  let read ← value
  let _ ← whiteSpace
  let _ ← endOfInput
  pure read

/-- Reads a text that is a value, with or without white space at its end. -/
def parseComplete (text : String) : m (Except Failure Value) := inSpan "parse_complete" text do
  match document.run (.ofString text) with
  | .ok (read, _) =>
    Record.record (Signal.noted .parsedComplete)
    pure (.ok read)
  | .error failure =>
    Record.record (Signal.noted (.invalidDocument failure.position failure.expectation))
    pure (.error failure)

/-! ## Without a listener -/

theorem run_parse (text : String) :
    Id.run (parse text) = (value.run (.ofString text)).map (·.1) := by
  unfold parse
  rcases value.run (.ofString text) with failure | ⟨read, next⟩ <;> rfl

theorem run_parseComplete (text : String) :
    Id.run (parseComplete text) = (document.run (.ofString text)).map (·.1) := by
  unfold parseComplete
  rcases document.run (.ofString text) with failure | ⟨read, next⟩ <;> rfl

end Descent.Json
