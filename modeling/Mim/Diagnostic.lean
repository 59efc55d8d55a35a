import Mim.Lexeme
import Mim.Span
import Mim.TieBreak
import Mim.Token

/-! # Diagnostics

What reading a source text has to report: text that is no token, tokens that
fit no form, and, as notes, the tie-break rules applied. Each has a span, a
message, and a report with a label for its place.
-/

namespace Mim

/-- How a sequence of tokens fails to fit the grammar. -/
inductive Fault where
  | unexpectedToken (expected found : String)
  | unexpectedEnd (expected : String)
  | invalid (message : String)
  /-- The token is broken text, which has been reported as such. -/
  | errorToken
  deriving DecidableEq

def Fault.message : Fault → String
  | .unexpectedToken expected found => "expected " ++ expected ++ ", found " ++ found
  | .unexpectedEnd expected => "unexpected end of input, expected " ++ expected
  | .invalid message => "invalid syntax: " ++ message
  | .errorToken => "error token"

/-- A fault and the span it is reported at. -/
structure ParseError where
  fault : Fault
  span : Span
  deriving DecidableEq

/-- Whether the broken text behind an error has already been reported. -/
def ParseError.isReported (e : ParseError) : Bool := e.fault == .errorToken

def LexError.message : LexError → String
  | .unrecognizedToken => "unrecognized token"
  | .unterminatedString => "unterminated string literal"
  | .unterminatedBlockComment => "unterminated block comment"
  | .invalidNumber text => "invalid number literal: " ++ text

inductive Severity where
  | error
  | note
  deriving DecidableEq

namespace Diagnostic

inductive Cause where
  | lexical (error : LexError)
  | grammar (fault : Fault)
  | tieBreak (rule : TieBreak)
  deriving DecidableEq

end Diagnostic

structure Diagnostic where
  cause : Diagnostic.Cause
  span : Span
  deriving DecidableEq

namespace Diagnostic

/-- Applying a tie-break rule is worth a note and no error. -/
def severity (d : Diagnostic) : Severity :=
  match d.cause with
  | .lexical _ | .grammar _ => .error
  | .tieBreak _ => .note

def isError (d : Diagnostic) : Bool := d.severity == .error

def message (d : Diagnostic) : String :=
  match d.cause with
  | .lexical e => "lexical error: " ++ e.message
  | .grammar fault => "syntax error: " ++ fault.message
  | .tieBreak rule => "ambiguity resolved: " ++ rule.text

/-- How a label is drawn. -/
inductive LabelStyle where
  | primary
  | secondary
  deriving DecidableEq

/-- A diagnostic as it is shown: with a code, and a label at its span. -/
structure Report where
  severity : Severity
  code : Option String
  message : String
  labelStyle : LabelStyle
  labelSpan : Span
  labelMessage : String

/-- What the label of a diagnostic says about its place. -/
def label (d : Diagnostic) : String :=
  match d.cause with
  | .lexical .unrecognizedToken => "not a Mim token"
  | .lexical .unterminatedString => "string is never closed"
  | .lexical .unterminatedBlockComment => "comment runs to end of input"
  | .lexical (.invalidNumber _) => "number out of range"
  | .grammar (.unexpectedToken expected _) => "expected " ++ expected ++ " here"
  | .grammar (.unexpectedEnd _) => "input ends here"
  | .grammar (.invalid _) => "malformed construct"
  | .grammar .errorToken => "error token"
  | .tieBreak rule => rule.name

def report (d : Diagnostic) : Report :=
  let (code, style) := match d.cause with
    | .lexical _ => (some "E0001", .primary)
    | .grammar _ => (some "E0002", .primary)
    | .tieBreak _ => (none, .secondary)
  ⟨d.severity, code, d.message, style, d.span, d.label⟩

/-- A diagnostic in a list ordered by span start, in front of those that start with it. -/
def insert (d : Diagnostic) : List Diagnostic → List Diagnostic
  | [] => [d]
  | e :: es => if d.span.start ≤ e.span.start then d :: e :: es else e :: insert d es

/-- Diagnostics ordered by span start; those that start together keep their order. -/
def sort (ds : List Diagnostic) : List Diagnostic := ds.foldr insert []

def errorCount (ds : List Diagnostic) : Nat := ds.countP isError

def hasErrors (ds : List Diagnostic) : Bool := ds.any isError

end Diagnostic

/-- What a lexeme has to report: a note if it gave up its point, and an error if it is
    broken text. -/
def Lexeme.diagnostics (x : Lexeme) : List Diagnostic :=
  let note := if x.beforeMember then [⟨.tieBreak .integerBeforeMember, x.span⟩] else []
  match x.token with
  | .error reason => note ++ [⟨.lexical reason, x.span⟩]
  | _ => note

end Mim
