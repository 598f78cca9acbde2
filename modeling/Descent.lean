import Descent.Expr.Grammar
import Descent.Json.Document
import Descent.Json.Render
import Descent.Proofs.Cursor.Advance
import Descent.Proofs.Cursor.Place
import Descent.Proofs.Cursor.Span
import Descent.Proofs.Expr.Built
import Descent.Proofs.Expr.Derivation
import Descent.Proofs.Expr.Ending
import Descent.Proofs.Expr.Nullable
import Descent.Proofs.Expr.Reverting
import Descent.Proofs.Expr.Safety
import Descent.Proofs.Expr.Scanning
import Descent.Proofs.Expr.Termination
import Descent.Proofs.Expr.Uniform
import Descent.Proofs.Json.Body
import Descent.Proofs.Json.Chain
import Descent.Proofs.Json.Document
import Descent.Proofs.Json.Entries
import Descent.Proofs.Json.Escaping
import Descent.Proofs.Json.Fields
import Descent.Proofs.Json.Forward
import Descent.Proofs.Json.Grammar
import Descent.Proofs.Json.Interoperable
import Descent.Proofs.Json.Layout
import Descent.Proofs.Json.Lexing
import Descent.Proofs.Json.Lookahead
import Descent.Proofs.Json.Number
import Descent.Proofs.Json.Quoting
import Descent.Proofs.Json.RepeatedKeys
import Descent.Proofs.Json.RoundTrip
import Descent.Proofs.Json.Separated
import Descent.Proofs.Json.Signal
import Descent.Proofs.Json.Spelling
import Descent.Proofs.Json.Strict
import Descent.Proofs.Json.StrictReading
import Descent.Proofs.Json.StringLiteral
import Descent.Proofs.Json.Value
import Descent.Proofs.Json.WholeNumber
import Descent.Proofs.Number.Magnitude
import Descent.Proofs.Number.Nearest
import Descent.Proofs.Number.Numeral
import Descent.Proofs.Number.Printing
import Descent.Proofs.Parser.Language
import Descent.Proofs.Parser.Reverting
import Descent.Proofs.Parser.Uniform
import Descent.Proofs.Text.Run
import Descent.Proofs.Json.Alternatives
import Descent.Proofs.Parser.Repetition
import Descent.Proofs.Json.Equality
import Descent.Proofs.Json.Bounds
import Descent.Proofs.Cursor.Context
import Descent.Proofs.Cursor.Lines
import Descent.Proofs.Cursor.Location
import Descent.Proofs.Parser.OneByOne
import Descent.Proofs.Parser.Regrouping
import Descent.Proofs.Parser.Recorded
import Descent.Proofs.Expr.Recorded
