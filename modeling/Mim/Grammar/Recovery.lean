import Mim.Grammar.Decl

/-! # Recovery

What happens where a declaration cannot be read: the error is recorded, tokens
are passed over up to the next boundary, and a placeholder takes the place of the
declaration.
-/

namespace Mim

/-- Whether a token begins something after a broken declaration. Inside a `where`, its end
    does too. -/
def Token.isBoundary (inWhere : Bool) : Token → Bool
  | .keyword .import_ | .keyword .plugin => true
  | .keyword .end_ => inWhere
  | token => token.startsDeclaration

namespace Reading

/-- Passes over items up to a boundary, or through a semicolon, whichever comes first.
    Gives where the last one passed over ends, and the items left. -/
def skipItems (inWhere : Bool) (lastEnd : Nat) : List Item → Nat × List Item
  | [] => (lastEnd, [])
  | i :: rest =>
    if i.token = .symbol .semicolon then (i.span.stop, rest)
    else if i.token.isBoundary inWhere then (lastEnd, i :: rest)
    else skipItems inWhere i.span.stop rest

/-- Passes over a broken declaration that began at `start`, at least one token of it, and
    gives its span. -/
def recover (s : Reading) (inWhere : Bool) (start : Reading) : Span × Reading :=
  let s := if s.rest.length = start.rest.length then s.advance else s
  let (lastEnd, rest) := skipItems inWhere s.lastEnd s.rest
  let s := { s with lastEnd, rest }
  (s.spanFrom start.span.start, s)

end Reading

namespace Grammar

/-- What a step reads; if it fails, the span of what is passed over instead. -/
def recovering (inWhere : Bool) (step : Parser α) : Parser (Except Span α) :=
  modifyGet fun s =>
    match step s with
    | .ok a s' => (.ok a, s')
    | .error e s' =>
      let (span, s'') := (s'.report e).recover inWhere s
      (.error span, s'')

/-- A declaration, or a placeholder for a broken one. -/
def declarationOrError (inWhere : Bool) (step : Parser Decl) : Parser Decl := do
  match ← recovering inWhere step with
  | .ok d => return d
  | .error span => return ⟨none, .error, span⟩

/-- The declarations of a `where`, through its end. Any number of semicolons may stand
    between them. -/
def whereBody (g : Nested) : Parser (List Decl) := do
  let parts ← many do
    if ← accept (.symbol .semicolon) then return some none
    match ← peek with
    | none | some (.keyword .end_) => return none
    | some _ => return some (some (← declarationOrError true (declaration g)))
  expect (.keyword .end_)
  return parts.filterMap id

end Grammar

end Mim
