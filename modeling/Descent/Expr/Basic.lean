import Descent.Expr.Datum
import Descent.Json.Rules
import Descent.Parser.Pattern
import Descent.Parser.Sequence
import Descent.Parser.Visit

/-!
# Parser expressions

Parsers as data: scanners and grammar rules at the leaves, combinators above them.  `Expr.parser`
turns an expression into the parser it describes, given a parser for each name that it refers to.
-/

namespace Descent

/-- An expression that describes a parser. -/
inductive Expr where
  | literal (text : String)
  | pattern (q : Pattern)
  | stringLiteral
  | float
  | integer
  | json (rule : Json.Rule)
  | any (alternatives : List Expr)
  | sequence (steps : List Expr)
  | many (body : Expr)
  | optional (body : Expr)
  | map (f : Datum → Datum) (body : Expr)
  | fail (what : String)
  | pass
  | position
  | skip (n : Nat)
  | ref (name : String)
  | traced (tag : String) (body : Expr)

namespace Expr

variable {m : Type → Type} [Monad m] [Record Visit m]

mutual

/-- The parser that an expression describes. -/
def parser (refs : String → Parser m Datum) : Expr → Parser m Datum
  | literal text => .text <$> (Parser.literal text).lift
  | pattern q => .text <$> (Parser.pattern q).lift
  | stringLiteral => .text <$> Json.stringLiteral.lift
  | float => .float <$> Json.float.lift
  | integer => .float <$> Json.integer.lift
  | json rule => .json <$> rule.parser.lift
  | any alternatives => Parser.any (parsers refs alternatives)
  | sequence steps => .list <$> Parser.sequence (parsers refs steps)
  | many body => .list <$> Parser.many (parser refs body)
  | optional body => .ofOption <$> Parser.optional (parser refs body)
  | map f body => f <$> parser refs body
  | fail what => Parser.fail what
  | pass => pure .unit
  | position => .count <$> Parser.position
  | skip n => .text <$> Parser.skip n
  | ref name => refs name
  | traced tag body => Parser.traced tag (parser refs body)

/-- The parsers that the expressions of a list describe. -/
def parsers (refs : String → Parser m Datum) : List Expr → List (Parser m Datum)
  | [] => []
  | e :: es => parser refs e :: parsers refs es

end

theorem parsers_eq_map (refs : String → Parser m Datum) (es : List Expr) :
    parsers refs es = es.map (parser refs) := by
  induction es with
  | nil => rfl
  | cons e es ih => simp [parsers, ih]

end Expr

end Descent
