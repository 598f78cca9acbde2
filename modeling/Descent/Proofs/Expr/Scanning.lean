import Descent.Proofs.Cursor.Place
import Descent.Proofs.Expr.Ending

/-!
# Scanning bytes

The scanners over places.  Here everything is counted in bytes: what comes next is cut out of the
string, characters come with the offsets at which they start, and a scanner goes on at the offset it
has worked out.  A scan gives nothing if one of its slices is out of range or off a boundary, or if
one of its moves does not land exactly at the offset asked for.  The main statement is
`Place.scan_place`: this never happens at the place of a cursor, and what is found is what the
parser finds there.
-/

namespace Descent

open Descent.Text Descent.Parser

/-! ## Faults and outcomes -/

/-- Why and at which place a scan failed. -/
inductive Place.Fault where
  | expected (what : String) (place : Place)
  | noneMatched (place : Place)
deriving DecidableEq

/-- What was expected, in words. -/
def Place.Fault.expectation : Place.Fault → String
  | expected what _ => what
  | noneMatched _ => "no parser matched"

/-- Where the fault was found out. -/
def Place.Fault.place : Place.Fault → Place
  | expected _ place => place
  | noneMatched place => place

/-- The failure with its place in bytes. -/
def Failure.located : Failure → Place.Fault
  | expected what c => .expected what c.place
  | noneMatched c => .noneMatched c.place

@[simp] theorem Failure.expectation_located (failure : Failure) :
    failure.located.expectation = failure.expectation := by
  cases failure <;> rfl

@[simp] theorem Failure.place_located (failure : Failure) :
    failure.located.place = failure.cursor.place := by
  cases failure <;> rfl

namespace Place

/-- What comes out of a scan: a value and the place behind it, or a fault. -/
abbrev Found (α : Type) : Type := Except Fault (α × Place)

/-- The outcome with its places in bytes. -/
def located {α : Type} : Outcome α → Found α
  | .ok (a, next) => .ok (a, next.place)
  | .error failure => .error failure.located

/-- The value changed. -/
def Found.map {α β : Type} (f : α → β) : Found α → Found β
  | .ok (a, next) => .ok (f a, next)
  | .error fault => .error fault

/-! ## Scanners -/

/-- The characters with the offsets at which they start, counted from the given one. -/
def charIndices : Nat → List Char → List (Nat × Char)
  | _, [] => []
  | i, c :: cs => (i, c) :: charIndices (i + c.utf8Size) cs

/-- The offset of the first character that is not of the kind, or else the length of the string. -/
def runLength (accepts : Char → Bool) (s : String) : Nat :=
  match (charIndices 0 s.toList).find? fun (_, c) => !accepts c with
  | some (i, _) => i
  | none => s.utf8ByteSize

/-- Goes through the characters behind an opening quote with what has been collected and whether the
next character is taken as it is.  Gives the content and the offset of the quote that ends it. -/
def findQuote : List (Nat × Char) → List Char → Bool → Option (List Char × Nat)
  | [], _, _ => none
  | (_, c) :: cs, content, true => findQuote cs (content ++ [c]) false
  | (i, c) :: cs, content, false =>
    if c = '\\' then findQuote cs content true
    else if c = '"' then some (content, i)
    else findQuote cs (content ++ [c]) false

variable (p : Place)

/-- The given text, if what comes next starts with it. -/
def literal (text : String) : Option (Found (List Char)) := do
  let rest ← p.rest?
  if text.toList.isPrefixOf rest.toList then
    let next ← p.advanceExactly? text.utf8ByteSize
    let word ← p.sliceTo? next
    pure (.ok (word.toList, next))
  else
    pure (.error (.expected (quoted text) p))

/-- What comes next up to the first character that the pattern does not accept. -/
def pattern (q : Pattern) : Option (Found (List Char)) := do
  let rest ← p.rest?
  let len := runLength q.accepts.contains rest
  if len = 0 ∧ q.quantifier = .oneOrMore then
    pure (.error (.expected q.what p))
  else
    let word ← slice? rest 0 len
    let next ← p.advanceExactly? len
    pure (.ok (word.toList, next))

/-- The content of a string literal. -/
def stringLiteral : Option (Found (List Char)) := do
  let rest ← p.rest?
  if rest.toList.head? = some '"' then
    let body ← p.advanceExactly? 1
    let inside ← body.rest?
    match findQuote (charIndices 0 inside.toList) [] false with
    | some (content, i) =>
      let next ← body.advanceExactly? (i + 1)
      pure (.ok (content, next))
    | none =>
      let last ← body.advanceExactly? inside.utf8ByteSize
      pure (.error (.expected "closing quote" last))
  else
    pure (.error (.expected (quoted "\"") p))

/-- A run of characters that is read as a number. -/
def converted (q : Pattern) (what : String) : Option (Found Binary64) := do
  match ← p.pattern q with
  | .error fault => pure (.error fault)
  | .ok (run, next) =>
    match Binary64.ofChars? run with
    | some x => pure (.ok (x, next))
    | none => pure (.error (.expected what p))

/-- A number as a value.  Digits alone are looked for only if there is no run that could be one. -/
def number : Option (Found Json.Value) := do
  match ← p.converted .numeric Json.malformedFloat with
  | .ok (x, next) => pure (.ok (.number x, next))
  | .error fault =>
    if fault.expectation = Json.malformedFloat then pure (.error fault)
    else
      let found ← p.converted .digits "integer"
      pure (found.map .number)

/-- The machine over places. -/
abbrev machine : Machine where
  Place := Place
  Fault := Fault
  noneMatched := .noneMatched
  scan
    | .literal text, p => (p.literal text).map (Found.map .text)
    | .pattern q, p => (p.pattern q).map (Found.map .text)
    | .stringLiteral, p => p.stringLiteral.map (Found.map .text)
    | .float, p => (p.converted .numeric Json.malformedFloat).map (Found.map .float)
    | .integer, p => (p.converted .digits "integer").map (Found.map .float)
    | .number, p => p.number.map (Found.map .json)

/-! ## Characters with their offsets -/

theorem find?_charIndices {accepts : Char → Bool} {w r : List Char} (hw : All accepts w)
    (hr : Stops accepts r) (i : Nat) :
    (charIndices i (w ++ r)).find? (fun (_, c) => !accepts c) =
      r.head?.map fun c => (i + byteLength w, c) := by
  induction w generalizing i with
  | nil =>
    cases r with
    | nil => rfl
    | cons c r => simp [charIndices, stops_cons_iff.1 hr]
  | cons c w ih =>
    obtain ⟨hc, hw⟩ := all_cons_iff.1 hw
    simp [charIndices, hc, ih hw, Nat.add_assoc]

theorem runLength_ofList {accepts : Char → Bool} {w r : List Char} (h : IsRun accepts w r) :
    runLength accepts (String.ofList (w ++ r)) = byteLength w := by
  rw [runLength, String.toList_ofList, find?_charIndices h.1 h.2]
  cases r with
  | nil => simp
  | cons c r => simp

theorem utf8Size_quote : '"'.utf8Size = 1 := rfl

/-- Behind an opening quote the quote that ends the literal is found with the offset of its byte. -/
theorem findQuote_charIndices (t content : List Char) (i : Nat) :
    findQuote (charIndices i t) content false =
      (Json.readBody? t).map fun found => (content ++ found.1, i + byteLength found.2 - 1) := by
  fun_induction Json.readBody? t generalizing content i with
  | case1 => rfl
  | case2 => rfl
  | case3 c cs ih =>
    simp only [charIndices, findQuote, if_true, ih, Option.map_map]
    refine congrArg (Option.map · _) (funext fun found => ?_)
    simp [Nat.add_assoc]
  | case4 cs =>
    have hbackslash : ('"' : Char) ≠ '\\' := by decide
    simp [charIndices, findQuote, hbackslash, utf8Size_quote]
  | case5 c cs hnil hcons hquote ih =>
    have hbackslash : c ≠ '\\' := by
      rintro rfl
      cases cs with
      | nil => exact hnil rfl rfl
      | cons d ds => exact hcons d ds rfl rfl
    simp only [charIndices, findQuote, if_neg hbackslash, if_neg hquote, ih, Option.map_map]
    refine congrArg (Option.map · _) (funext fun found => ?_)
    simp [Nat.add_assoc]

/-! ## What scanners find at the place of a cursor -/

variable {c : Cursor}

theorem literal_place (hc : byteLength c.source < UInt64.size) (text : String) :
    c.place.literal text = some (located ((Parser.literal text).run c)) := by
  rw [literal, c.rest?_place]
  by_cases h : text.toList <+: c.rest
  · obtain ⟨r, hr⟩ := id h
    obtain ⟨next, hs, rfl⟩ := Cursor.exists_spans hr.symm
    have hrun := (reads_literal text (Nat.lt_succ_self _)).2 ⟨_, hs, rfl, rfl⟩
    have hmove := hs.advanceExactly?_place hc
    rw [byteLength_toList] at hmove
    simp [h, hrun, hmove, hs.sliceTo?_place, located]
  · simp [h, run_literal_of_not_isPrefix h, located, Failure.located]

theorem pattern_place (hc : byteLength c.source < UInt64.size) (q : Pattern) :
    c.place.pattern q = some (located ((Parser.pattern q).run c)) := by
  obtain ⟨b, t⟩ := c
  obtain ⟨w, r, rfl, hrun⟩ := exists_isRun q.accepts.contains t
  have hs := Cursor.spans_append b w r
  have hslice := slice?_ofList [] w r
  simp only [List.nil_append, byteLength_nil] at hslice
  have hshort : byteLength w = 0 ∧ q.quantifier = .oneOrMore ↔
      w.length < q.quantifier.least := by
    rw [byteLength_eq_zero_iff]
    cases hq : q.quantifier with
    | zeroOrMore => simp [Quantifier.least]
    | oneOrMore => simp [Quantifier.least]
  rw [pattern, Cursor.rest?_place, run_pattern q hrun]
  simp only [Option.bind_eq_bind, Option.bind_some, runLength_ofList hrun, hshort]
  split
  · rfl
  · simp only [hslice, hs.advanceExactly?_place hc, Option.bind_some, String.toList_ofList, located]
    rfl

theorem stringLiteral_place (hc : byteLength c.source < UInt64.size) :
    c.place.stringLiteral = some (located (Json.stringLiteral.run c)) := by
  obtain ⟨b, t⟩ := c
  rw [stringLiteral, Cursor.rest?_place]
  by_cases hq : t.head? = some '"'
  · obtain ⟨t, rfl⟩ : ∃ t', t = '"' :: t' := List.head?_eq_some_iff.1 hq
    have hopen := Cursor.spans_append b ['"'] t
    have hinside : byteLength (Cursor.source ⟨'"' :: b, t⟩) < UInt64.size := hopen.source_eq ▸ hc
    have hmove : (Cursor.place ⟨b, '"' :: t⟩).advanceExactly? 1 =
        some (Cursor.place ⟨'"' :: b, t⟩) :=
      hopen.advanceExactly?_place hc
    rw [Json.run_stringLiteral]
    simp only [Option.bind_eq_bind, Option.bind_some, String.toList_ofList, hq, if_true, hmove,
      Cursor.rest?_place, findQuote_charIndices]
    rcases ht : Json.readBody? t with - | ⟨content, body⟩
    · have hend : Cursor.Spans ⟨'"' :: b, t⟩ t ⟨t.reverse ++ '"' :: b, []⟩ := by
        simpa using Cursor.spans_append ('"' :: b) t []
      simp only [Option.map_none, utf8ByteSize_ofList, hend.advanceExactly?_place hinside,
        hend.advance_eq, Option.bind_some]
      rfl
    · obtain ⟨u, r, rfl, rfl, -⟩ := Json.exists_of_readBody? ht
      have hbody := Cursor.spans_append ('"' :: b) (u ++ ['"']) r
      have hoffset : 0 + byteLength (u ++ ['"']) - 1 + 1 = byteLength (u ++ ['"']) := by
        simp [utf8Size_quote]
      simp only [Option.map_some, List.nil_append, hoffset, hbody.advanceExactly?_place hinside,
        hbody.advance_eq, Option.bind_some]
      rfl
  · have hfails := Json.run_stringLiteral_of_head?_ne (c := ⟨b, t⟩) hq
    simp [hfails, hq, located, Failure.located]

theorem converted_place (hc : byteLength c.source < UInt64.size) (q : Pattern) (what : String) :
    c.place.converted q what = some (located ((Json.converted q what).run c)) := by
  rw [converted, pattern_place hc, Json.run_converted_eq]
  rcases (Parser.pattern q).run c with failure | ⟨w, next⟩
  · rfl
  · simp only [Option.bind_eq_bind, Option.bind_some, located]
    rcases Binary64.ofChars? w with - | x <;> rfl

theorem map_located {α β : Type} (f : α → β) (p : Parser Id α) (c : Cursor) :
    (located (p.run c)).map f = located ((f <$> p).run c) := by
  rw [run_map]
  rcases p.run c with failure | ⟨a, next⟩ <;> rfl

theorem number_place (hc : byteLength c.source < UInt64.size) :
    c.place.number = some (located (Json.number.run c)) := by
  have hscan : c.place.converted .numeric Json.malformedFloat = some (located (Json.float.run c)) :=
    converted_place hc _ _
  have hdigits : c.place.converted .digits "integer" = some (located (Json.integer.run c)) :=
    converted_place hc _ _
  rw [number, hscan]
  rcases hfloat : Json.float.run c with failure | ⟨x, next⟩
  · rw [Json.run_number_of_error hfloat]
    simp only [located, Option.bind_eq_bind, Option.bind_some, Failure.expectation_located, hdigits]
    split
    · rfl
    · exact congrArg some (map_located Json.Value.number Json.integer c)
  · rw [Json.run_number_of_ok hfloat]
    rfl

/-- The scan of the machine at the place of a cursor finds what the parser finds there. -/
theorem scan_place (hc : byteLength c.source < UInt64.size) (s : Scanner) :
    machine.scan s c.place = some (located (s.parser.run c)) := by
  cases s with
  | literal text => simp [literal_place hc, map_located, Scanner.parser]
  | pattern q => simp [pattern_place hc, map_located, Scanner.parser]
  | stringLiteral => simp [stringLiteral_place hc, map_located, Scanner.parser]
  | float => simp [converted_place hc, map_located, Scanner.parser, Json.float]
  | integer => simp [converted_place hc, map_located, Scanner.parser, Json.integer]
  | number => simp [number_place hc, map_located, Scanner.parser]

end Place

end Descent
