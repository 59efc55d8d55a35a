import Mim.Reading
import Mim.Tree

/-! # Names

Identifiers, and annexes with their subtags.
-/

namespace Mim.Grammar

def identifier : Parser Ident := do
  match ← peek with
  | some (.ident name) =>
    let span ← span
    advance
    return ⟨name, span⟩
  | _ => unexpected "identifier"

/-- An identifier, if there is one. -/
def identifier? : Parser (Option Ident) := do
  match ← peek with
  | some (.ident _) => some <$> identifier
  | _ => return none

/-- What stands inside a subtag list. -/
def isSubtagToken : Token → Bool
  | .ident _ | .symbol .assign | .symbol .comma => true
  | _ => false

/-- Whether a parenthesis with only identifiers, equals signs and commas in it comes next. -/
def subtagListAhead (items : List Item) : Bool :=
  match items with
  | ⟨.symbol .leftParen, _, _⟩ :: rest =>
    let isInside := fun (i : Item) => isSubtagToken i.token
    let after := (rest.dropWhile isInside).head?.map Item.token
    !(rest.takeWhile isInside).isEmpty && after == some (.symbol .rightParen)
  | _ => false

def subtag : Parser Subtag := do
  let ((tag, aliases), span) ← located do
    let tag ← identifier
    let aliases ← many do
      if ← accept (.symbol .assign) then some <$> identifier else return none
    return (tag, aliases)
  return ⟨tag, aliases, span⟩

def subtagList : Parser (List Subtag) := do
  expect (.symbol .leftParen)
  let subtags ← commaList (.symbol .rightParen) subtag
  expect (.symbol .rightParen)
  return subtags

/-- Fails at a percent sign that no name follows directly. -/
def barePercent : Parser α := do
  invalid "annex name must follow '%' without whitespace" (← span)

/-- An annex where it is named. A parenthesis after it is a subtag list if it can be one,
    and the path may not have a subtag then. -/
def annex : Parser Annex := do
  let ((path, subtags), span) ← located do
    match ← peek with
    | some (.annex path) =>
      advance
      if !subtagListAhead (← get).rest then return (path, [])
      else if path.subtag.isSome then
        invalid "annex cannot have both a dotted subtag and a subtag list" (← span)
      else return (path, ← subtagList)
    | some .percent => barePercent
    | _ => unexpected "annex name"
  return ⟨path, subtags, span⟩

/-- Whether a name that is an annex comes next, even a broken one. -/
def annexAhead : Parser Bool := do
  match ← peek with
  | some (.annex _) | some .percent => return true
  | _ => return false

def name : Parser Name := do
  if ← annexAhead then return .annex (← annex)
  match ← peek with
  | some (.ident _) => return .ident (← identifier)
  | _ => unexpected "name"

end Mim.Grammar
