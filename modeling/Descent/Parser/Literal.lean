import Descent.Parser.Basic

/-!
# Literals

A literal matches one given text at the cursor and nothing else.
-/

namespace Descent

open Text

namespace Parser

/-- How a literal is named in failures: between backquotes. -/
def quoted (text : String) : String := "`" ++ text ++ "`"

/-- Reads the given text, and fails without reading anything if the rest does not start with it. -/
def literal (text : String) : Parser Id (List Char) := fun c =>
  if text.toList.isPrefixOf c.rest then
    let next := c.advance (byteLength text.toList)
    .ok (c.sliceTo next, next)
  else
    .error (.expected (quoted text) c)

/-- A literal matches exactly where its text comes next. -/
theorem run_literal (text : String) (before after : List Char) :
    (literal text).run ⟨before, text.toList ++ after⟩ =
      .ok (text.toList, ⟨text.toList.reverse ++ before, after⟩) := by
  have h : text.toList.isPrefixOf (text.toList ++ after) := by simp
  simp [literal, run, Id.run, h]

theorem run_literal_of_not_isPrefix {text : String} {c : Cursor} (h : ¬ text.toList <+: c.rest) :
    (literal text).run c = .error (.expected (quoted text) c) := by
  have h' : ¬ text.toList.isPrefixOf c.rest := by simpa using h
  simp [literal, run, Id.run, h']

end Parser

end Descent
