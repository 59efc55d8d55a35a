import Mim.Grammar.Name
import Mim.Operator

/-! # Binders

Patterns, types that bind, and tuples of either. The grammar is recursive, and
the two forms that it comes back to, an expression of a least strength and a
binder tuple, are passed to each rule as a `Nested`.
-/

namespace Mim

/-- How to read what is nested inside a form. -/
structure Nested where
  expr : Prec → Parser Expr
  tuple : Bracket → Parser Binder

/-- The opening token of a binder tuple. -/
def Bracket.open_ : Bracket → Token
  | .round => .symbol .leftParen
  | .square => .symbol .leftBracket
  | .curly => .symbol .leftBrace

/-- The closing token of a binder tuple. -/
def Bracket.close : Bracket → Token
  | .round => .symbol .rightParen
  | .square => .symbol .rightBracket
  | .curly => .symbol .rightBrace

namespace Grammar

/-- An expression of any strength. -/
def anyExpr (g : Nested) : Parser Expr := g.expr .bottom

/-- Whether a colon follows the next token. -/
def colonFollows : Parser Bool := return (← peekAt 1) == some (.symbol .colon)

/-- A name and its type. -/
def typed (g : Nested) : Parser Binder := do
  let ((ident, ty), span) ← located do
    let ident ← identifier
    expect (.symbol .colon)
    return (ident, ← anyExpr g)
  return .typed ident ty span

/-- Names and the type that they share. -/
def group (g : Nested) : Parser Binder := do
  let ((names, ty), span) ← located do
    let names ← many identifier?
    expect (.symbol .colon)
    return (names, ← anyExpr g)
  return .group names ty span

/-- A name, a name with a type, or a tuple in parentheses. -/
def pattern (g : Nested) : Parser Binder := do
  match ← peek with
  | some (.symbol .leftParen) => g.tuple .round
  | some (.ident _) =>
    if ← colonFollows then typed g else return .name (← identifier)
  | _ => unexpected "pattern"

/-- A type of a least strength, a name with a type, or a tuple in brackets. -/
def battern (g : Nested) (least : Prec) : Parser Binder := do
  match ← peek with
  | some (.symbol .leftBracket) => g.tuple .square
  | some (.ident _) =>
    if ← colonFollows then typed g else return .type (← g.expr least)
  | _ => return .type (← g.expr least)

/-- Whether two or more identifiers and a colon come next. -/
def groupAhead : Parser Bool := do
  let rest := (← get).rest
  let isIdent := fun (i : Item) => match i.token with
    | .ident _ => true
    | _ => false
  let after := (rest.dropWhile isIdent).head?.map Item.token
  return 2 ≤ (rest.takeWhile isIdent).length && after == some (.symbol .colon)

/-- One element of a binder tuple. -/
def element (g : Nested) (bracket : Bracket) : Parser Binder := do
  if ← groupAhead then
    unless bracket = .round do note .groupOverBatternType (← span)
    group g
  else match bracket with
    | .round => pattern g
    | .square | .curly => battern g .bottom

/-- A binder tuple, at its opening bracket. -/
def tuple (g : Nested) (bracket : Bracket) : Parser Binder := do
  let (elements, span) ← located do
    advance
    let elements ← commaList bracket.close (element g bracket)
    expect bracket.close
    return elements
  return .tuple bracket elements span

/-- What a `let`, a `ret`, a rule or an arm binds. Only an annotated name takes the type
    after it. -/
def binder (g : Nested) (annotated : Bool) : Parser Binder := do
  match ← peek with
  | some (.symbol .leftParen) => pattern g
  | some (.symbol .leftBracket) => battern g .pi
  | some (.ident _) =>
    let place ← span
    note .patternOverBattern place
    if annotated then pattern g
    else
      if ← colonFollows then note .typeToEnclosingForm place
      return .name (← identifier)
  | some token =>
    if token.startsOperand then return .type (← g.expr .pi) else unexpected "binder"
  | none => unexpected "binder"

/-- The domain of a function. A type without brackets binds more strongly than an
    application, so juxtaposition begins the next domain. -/
def domain (g : Nested) : Parser Binder := do
  match ← peek with
  | some (.symbol .leftParen) => pattern g
  | some (.symbol .leftBracket) => battern g .pi
  | some (.symbol .leftBrace) => g.tuple .curly
  | some (.ident _) =>
    if ← colonFollows then note .typeToEnclosingForm (← span)
    return .name (← identifier)
  | some token =>
    if token.startsOperand then return .type (← g.expr .union) else unexpected "domain"
  | none => unexpected "domain"

/-- A domain, if a token that one can begin with comes next. -/
def domain? (g : Nested) : Parser (Option Binder) := do
  match ← peek with
  | some token => if token.startsDomain then some <$> domain g else return none
  | none => return none

/-- The domain of a function type. -/
def piDomain (g : Nested) : Parser Binder := do
  if ← sees (.symbol .leftBrace) then g.tuple .curly else battern g .pi

end Grammar

end Mim
