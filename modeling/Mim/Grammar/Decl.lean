import Mim.Grammar.Binder

/-! # Declarations

The rules for each kind of declaration. The semicolon after one belongs to what
is around it.
-/

namespace Mim.Grammar

-- Powers are those of the core library here, whatever is imported besides.
attribute [local instance (2000)] instPowNat

/-- What a marker token introduces, if it is there. -/
def after (marker : Token) (step : Parser α) : Parser (Option α) := do
  if ← accept marker then some <$> step else return none

/-- The number of arguments that an axiom takes one by one. -/
def curry : Parser Nat := do
  match ← peek with
  | some (.literal (.int n)) =>
    let place ← span
    advance
    if 0 ≤ n && n < 2 ^ (64 : Nat) then return n.toNat
    else
      let found := String.ofList (Numeral.intText n)
      invalid ("curry count must be non-negative, found " ++ found) place
  | _ => unexpected "curry count"

/-- A count, and a name after a comma. -/
def curryAndTrip : Parser (Nat × Option Ident) := do
  let count ← curry
  return (count, ← after (.symbol .comma) identifier)

/-- What follows the comma after the type of an axiom: a normalizer, a count, or both. -/
def axmOptions : Parser (Option Ident × Option (Nat × Option Ident)) := do
  match ← identifier? with
  | some normalizer => return (some normalizer, ← after (.symbol .comma) curryAndTrip)
  | none => return (none, some (← curryAndTrip))

def axm (g : Nested) : Parser DeclForm := do
  expect (.keyword .axm)
  let name ← annex
  expect (.symbol .colon)
  let ty ← anyExpr g
  match ← after (.symbol .comma) axmOptions with
  | none => return .axm name ty none none
  | some (normalizer, count) => return .axm name ty normalizer count

def cfun (g : Nested) : Parser DeclForm := do
  expect (.keyword .cfun)
  let domain ← do
    if ← sees (.symbol .leftBracket) then battern g .pi
    else
      if (← identifierAhead) && (← colonFollows) then note .typeToEnclosingForm (← span)
      pure (.type (← g.expr .pi))
  expect (.symbol .colon)
  return .cfun domain (← anyExpr g)
where
  identifierAhead : Parser Bool := do
    match ← peek with
    | some (.ident _) => return true
    | _ => return false

def ccon (g : Nested) : Parser DeclForm := do
  expect (.keyword .ccon)
  return .ccon (← battern g .pi)

def let_ (g : Nested) : Parser DeclForm := do
  expect (.keyword .let_)
  if ← annexAhead then
    let target ← annex
    expect (.symbol .assign)
    return .letAnnex target (← anyExpr g)
  else
    let target ← binder g true
    expect (.symbol .assign)
    return .let_ target (← anyExpr g)

/-- A domain and the filter after it. A filter after a domain that is only a type could
    be an argument. -/
def param (g : Nested) : Parser Param := do
  let ((domain, filter), span) ← located do
    let domain ← domain g
    if ← sees (.symbol .atSign) then
      match domain with
      | .type _ => note .filterOverExplicitApplication (← span)
      | _ => pure ()
      advance
      return (domain, some (← g.expr .union))
    else return (domain, none)
  return ⟨domain, filter, span⟩

/-- A parameter, if a token that one can begin with comes next. -/
def param? (g : Nested) : Parser (Option Param) := do
  match ← peek with
  | some token => if token.startsDomain then some <$> param g else return none
  | none => return none

/-- The kind of function that a keyword declares. -/
def lamKind? : Token → Option LamKind
  | .keyword .lam => some .lam
  | .keyword .con => some .con
  | .keyword .fun_ => some .fun_
  | _ => none

def lam (g : Nested) : Parser Lam := do
  let ((kind, isExternal, name, params, codomain, body), span) ← located do
    match (← peek).bind lamKind? with
    | none => unexpected "'lam', 'con' or 'fun'"
    | some kind =>
      advance
      let isExternal ← accept (.keyword .external)
      let name ← name
      let params ← many (param? g)
      let codomain ← after (.symbol .colon) (anyExpr g)
      let body ← after (.symbol .assign) (anyExpr g)
      return (kind, isExternal, name, params, codomain, body)
  return ⟨kind, isExternal, name, params, codomain, body, span⟩

def recBinding (g : Nested) : Parser RecBinding := do
  let ((name, ty, value), span) ← located do
    let name ← name
    let ty ← after (.symbol .colon) (anyExpr g)
    expect (.symbol .assign)
    return (name, ty, ← anyExpr g)
  return ⟨name, ty, value, span⟩

/-- The next member of a recursive group, unless it is a function, which ends the group. -/
def nextRecBinding? (g : Nested) : Parser (Option RecBinding) := do
  if ((← peekAt 1).bind lamKind?).isSome then return none
  after (.keyword .and_) (recBinding g)

def rec_ (g : Nested) : Parser DeclForm := do
  expect (.keyword .rec_)
  let bindings ← many1 (recBinding g) (nextRecBinding? g)
  return .rec_ bindings (← after (.keyword .and_) (lam g))

def rule (g : Nested) : Parser DeclForm := do
  let kind ← do
    if ← accept (.keyword .norm) then pure RuleKind.norm
    else
      expect (.keyword .rule)
      pure RuleKind.rule
  let binder ← binder g false
  expect (.symbol .colon)
  let lhs ← anyExpr g
  let guard ← after (.keyword .when_) (anyExpr g)
  expect (.symbol .fatArrow)
  return .rule kind binder lhs guard (← anyExpr g)

/-- A declaration without its doc comment. -/
def declForm (g : Nested) : Parser DeclForm := do
  match ← peek with
  | some (.keyword .axm) => axm g
  | some (.keyword .cfun) => cfun g
  | some (.keyword .ccon) => ccon g
  | some (.keyword .let_) => let_ g
  | some (.keyword .rec_) => rec_ g
  | some (.keyword .lam) | some (.keyword .con) | some (.keyword .fun_) => .lam <$> lam g
  | some (.keyword .rule) | some (.keyword .norm) => rule g
  | _ => unexpected "declaration"

def declaration (g : Nested) : Parser Decl := do
  let doc := (← get).doc?
  let (form, span) ← located (declForm g)
  return ⟨doc, form, span⟩

end Mim.Grammar
