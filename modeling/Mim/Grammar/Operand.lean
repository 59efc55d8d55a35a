import Mim.Grammar.Recovery

/-! # Operands

The rules for each form of expression that has no left operand.
-/

namespace Mim.Grammar

/-- A literal, and its type after a colon. Where the type is wanted by a stronger form,
    that it belongs to the literal is noted. -/
def literal (g : Nested) (least : Prec) (value : Literal) : Parser Form := do
  let place ← span
  advance
  if ← accept (.symbol .colon) then
    if .ascription < least then note .typeToLiteral place
    return .ascribed value place (← anyExpr g)
  else return .literal value

/-- An annex in an expression; a parenthesis after it is an argument. -/
def annexOperand (path : AnnexPath) : Parser Form := do
  advance
  if ← sees (.symbol .leftParen) then note .annexArgumentOverSubtags (← span)
  return .annex path

/-- A declaration, if a keyword of one comes next, and the semicolon after it. -/
def blockDeclaration? (g : Nested) : Parser (Option Decl) := do
  match ← peek with
  | some token =>
    if token.startsDeclaration then
      let d ← declaration g
      discard (accept (.symbol .semicolon))
      return some d
    else return none
  | none => return none

def block (g : Nested) : Parser Form := do
  let declarations ← many (blockDeclaration? g)
  return .block declarations (← anyExpr g)

/-- Square brackets: the domain of a function type if an arrow follows, else a tuple type,
    with its own name or without. -/
def bracketed (g : Nested) : Parser Form := do
  let tuple ← tuple g .square
  match ← after (.symbol .arrow) (g.expr .arrow) with
  | some codomain => return .pi .arrow tuple (some codomain)
  | none => return .sigma tuple (← after (.keyword .as_) name)

def implicitPi (g : Nested) : Parser Form := do
  let tuple ← tuple g .curly
  expect (.symbol .arrow)
  return .pi .arrow tuple (some (← g.expr .arrow))

def cnType (g : Nested) : Parser Form := do
  expect (.keyword .cnType)
  return .pi .cn (← piDomain g) none

def fnType (g : Nested) : Parser Form := do
  expect (.keyword .fnType)
  let domain ← piDomain g
  return .pi .fn domain (← after (.symbol .arrow) (g.expr .arrow))

def lm (g : Nested) : Parser Form := do
  expect (.keyword .lm)
  let domains ← many1 (domain g) (domain? g)
  let codomain ← after (.symbol .colon) (anyExpr g)
  expect (.symbol .assign)
  return .lambda .lm domains codomain (← anyExpr g)

/-- A pattern, if a parenthesis or an identifier comes next. -/
def pattern? (g : Nested) : Parser (Option Binder) := do
  match ← peek with
  | some (.symbol .leftParen) | some (.ident _) => some <$> pattern g
  | _ => return none

def cn (g : Nested) : Parser Form := do
  expect (.keyword .cn)
  let domains ← many1 (pattern g) (pattern? g)
  expect (.symbol .assign)
  return .lambda .cn domains none (← anyExpr g)

def insert (g : Nested) : Parser Form := do
  expect (.keyword .ins)
  expect (.symbol .leftParen)
  let tuple ← anyExpr g
  expect (.symbol .comma)
  let index ← anyExpr g
  expect (.symbol .comma)
  let value ← anyExpr g
  expect (.symbol .rightParen)
  return .insert tuple index value

def ret (g : Nested) : Parser Form := do
  expect (.keyword .ret)
  let binder ← binder g true
  expect (.symbol .assign)
  let callee ← anyExpr g
  expect (.symbol .dollar)
  let argument ← anyExpr g
  expect (.symbol .semicolon)
  return .ret binder callee argument (← anyExpr g)

def uniq (g : Nested) : Parser Form := do
  expect (.symbol .leftUniq)
  let inner ← anyExpr g
  expect (.symbol .rightUniq)
  return .uniq inner

def array (g : Nested) : Parser Form := do
  expect (.symbol .leftArray)
  let first ← anyExpr g
  let others ← after (.symbol .comma) (commaList (.symbol .semicolon) (anyExpr g))
  expect (.symbol .semicolon)
  let element ← anyExpr g
  expect (.symbol .rightArray)
  return .array (first :: others.getD []) element

def pack (g : Nested) : Parser Form := do
  expect (.symbol .leftPack)
  let shape ← anyExpr g
  expect (.symbol .semicolon)
  let body ← anyExpr g
  expect (.symbol .rightPack)
  return .pack shape body

/-- Parentheses, which always make a tuple. -/
def parenthesized (g : Nested) : Parser Form := do
  expect (.symbol .leftParen)
  let elements ← commaList (.symbol .rightParen) (anyExpr g)
  expect (.symbol .rightParen)
  return .tuple elements

def arm (g : Nested) : Parser Arm := do
  let ((binder, body), span) ← located do
    let binder ← binder g true
    expect (.symbol .fatArrow)
    return (binder, ← anyExpr g)
  return ⟨binder, body, span⟩

/-- The first arm, where no bar stands in front of it. -/
def firstArm? (g : Nested) : Parser (Option Arm) := do
  match ← peek with
  | some token =>
    if token.startsDomain && token != .symbol .leftBrace then some <$> arm g else return none
  | none => return none

def match_ (g : Nested) : Parser Form := do
  expect (.keyword .match_)
  let scrutinee ← anyExpr g
  expect (.keyword .with_)
  let first ← firstArm? g
  let others ← many (after (.symbol .pipe) (arm g))
  return .match_ scrutinee (first.toList ++ others)

/-- The form of an operand. The least strength wanted decides no more than a note. -/
def operandForm (g : Nested) (least : Prec) : Parser Form := do
  match ← peek with
  | some (.primitive ty) =>
    advance
    return .primitive ty
  | some (.ident name) =>
    advance
    return .ident name
  | some (.annex path) => annexOperand path
  | some (.literal value) => literal g least value
  | some (.symbol .leftBracket) => bracketed g
  | some (.symbol .leftBrace) => implicitPi g
  | some (.keyword .cnType) => cnType g
  | some (.keyword .fnType) => fnType g
  | some (.keyword .lm) => lm g
  | some (.keyword .cn) => cn g
  | some (.keyword .ins) => insert g
  | some (.keyword .ret) => ret g
  | some (.symbol .leftUniq) => uniq g
  | some (.symbol .leftArray) => array g
  | some (.symbol .leftPack) => pack g
  | some (.symbol .leftParen) => parenthesized g
  | some (.keyword .match_) => match_ g
  | some (.error _) =>
    advance
    return .error
  | some .percent => barePercent
  | some token => if token.startsDeclaration then block g else unexpected "expression"
  | none => unexpected "expression"

def operand (g : Nested) (least : Prec) : Parser Expr := do
  let (form, span) ← located (operandForm g least)
  return ⟨form, span⟩

end Mim.Grammar
