import Mim.Diagnostic
import Mim.Item
import Mim.Span
import Mim.TieBreak
import Mim.Token

/-! # Reading tokens

How far a sequence of items has been read, and the steps that the grammar is
made of. A step that fails stays where it failed, so that recovery can go on
from there.
-/

namespace Mim

/-- The items still to be read, where the last one read ends, and the diagnostics recorded
    so far, the latest first. -/
structure Reading where
  rest : List Item
  lastEnd : Nat
  recorded : List Diagnostic

namespace Reading

def start (items : List Item) : Reading := ⟨items, 0, []⟩

/-- The diagnostics in the order in which they were recorded. -/
def diagnostics (s : Reading) : List Diagnostic := s.recorded.reverse

def token? (s : Reading) : Option Token := s.rest.head?.map Item.token

/-- The doc comment in front of the next token. -/
def doc? (s : Reading) : Option String := s.rest.head?.bind Item.doc

/-- The token after the next `n`. -/
def tokenAt? (s : Reading) (n : Nat) : Option Token := s.rest[n]?.map Item.token

/-- The span of the next token; at the end of the input, the point after the last one. -/
def span (s : Reading) : Span :=
  match s.rest with
  | i :: _ => i.span
  | [] => Span.point s.lastEnd

/-- The span from an offset to the end of the last token read. -/
def spanFrom (s : Reading) (start : Nat) : Span := ⟨start, max s.lastEnd start⟩

def advance (s : Reading) : Reading :=
  match s.rest with
  | i :: rest => { s with rest, lastEnd := i.span.stop }
  | [] => s

def record (s : Reading) (d : Diagnostic) : Reading := { s with recorded := d :: s.recorded }

/-- Records the use of a tie-break rule, unless the last diagnostic says the same. -/
def note (s : Reading) (rule : TieBreak) (span : Span) : Reading :=
  let d : Diagnostic := ⟨.tieBreak rule, span⟩
  if s.recorded.head? = some d then s else s.record d

/-- Records an error, unless it is one of broken text. -/
def report (s : Reading) (e : ParseError) : Reading :=
  if e.isReported then s else s.record ⟨.grammar e.fault, e.span⟩

/-- What is wrong with the next token where something else is expected. -/
def mismatch (s : Reading) (expected : String) : ParseError :=
  match s.token? with
  | none => ⟨.unexpectedEnd expected, s.span⟩
  | some (.error _) => ⟨.errorToken, s.span⟩
  | some found => ⟨.unexpectedToken expected ("'" ++ found.display ++ "'"), s.span⟩

end Reading

/-- A step of the grammar. -/
abbrev Parser := EStateM ParseError Reading

namespace Grammar

def peek : Parser (Option Token) := return (← get).token?

def peekAt (n : Nat) : Parser (Option Token) := return (← get).tokenAt? n

def span : Parser Span := return (← get).span

def advance : Parser Unit := modify Reading.advance

def note (rule : TieBreak) (span : Span) : Parser Unit := modify (·.note rule span)

/-- Fails at the next token, where something else is expected. -/
def unexpected (expected : String) : Parser α := do throw ((← get).mismatch expected)

def invalid (message : String) (span : Span) : Parser α := throw ⟨.invalid message, span⟩

/-- Whether the next token is the given one. -/
def sees (token : Token) : Parser Bool := return (← peek) == some token

/-- Reads the next token if it is the given one. -/
def accept (token : Token) : Parser Bool := do
  if ← sees token then
    advance
    return true
  else return false

/-- Reads the given token. -/
def expect (token : Token) : Parser Unit := do
  unless ← accept token do unexpected ("'" ++ token.display ++ "'")

/-- What a step reads, together with its span. -/
def located (step : Parser α) : Parser (α × Span) := do
  let start ← span
  let a ← step
  return (a, (← get).spanFrom start.start)

/-- What an optional step reads for as long as it reads anything, at most `n` times. -/
def manyUpTo (step : Parser (Option α)) : Nat → Parser (List α)
  | 0 => return []
  | n + 1 => do
    match ← step with
    | none => return []
    | some a => return a :: (← manyUpTo step n)

/-- What an optional step reads for as long as it reads anything. It must read a token
    each time that it does, so there are no more times than tokens. -/
def many (step : Parser (Option α)) : Parser (List α) := do
  manyUpTo step ((← get).rest.length + 1)

/-- As `many`, where the first is there. -/
def many1 (first : Parser α) (step : Parser (Option α)) : Parser (List α) := do
  let a ← first
  return a :: (← many step)

/-- Elements divided by commas, up to a closing token that is not read, at most `n`. -/
def commaListUpTo (close : Token) (element : Parser α) : Nat → Parser (List α)
  | 0 => return []
  | n + 1 => do
    if ← sees close then return []
    let a ← element
    if ← accept (.symbol .comma) then return a :: (← commaListUpTo close element n)
    else return [a]

/-- Elements divided by commas, up to a closing token that is not read. The last may have
    a comma too. -/
def commaList (close : Token) (element : Parser α) : Parser (List α) := do
  commaListUpTo close element ((← get).rest.length + 1)

/-- Repeats a step on its own result until it gives none, at most `n` times. -/
def growUpTo (step : α → Parser (Option α)) : Nat → α → Parser α
  | 0, a => return a
  | n + 1, a => do
    match ← step a with
    | none => return a
    | some b => growUpTo step n b

/-- Repeats a step on its own result until it gives none. It must read a token each time
    that it gives one. -/
def grow (step : α → Parser (Option α)) (a : α) : Parser α := do
  growUpTo step ((← get).rest.length + 1) a

end Grammar

end Mim
