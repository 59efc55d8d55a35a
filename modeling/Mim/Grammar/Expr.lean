import Mim.Grammar.Operand

/-! # Expressions

An operand and the operators after it, as long as they bind strongly enough; and
the recursion of the whole grammar, which ends because each nested form begins
after at least one more token has been read.
-/

namespace Mim

/-- The operator that a token stands for after an operand; a token that begins an operand
    stands for juxtaposition. -/
def Operator.ofToken? : Token → Option Operator
  | .keyword .where_ => some .where_
  | .symbol .arrow => some .arrow
  | .keyword .inj => some .injection
  | .symbol .atSign => some .explicitApplication
  | .symbol .union => some .union
  | .symbol .hash => some .extraction
  | token => if token.startsDomain then some .application else none

namespace Grammar

/-- The next operator, if there is one. A declaration keyword is none, which is noted. -/
def operator? : Parser (Option Operator) := do
  match ← peek with
  | some token =>
    if token.startsDeclaration then
      note .declarationEndsApplication (← span)
      return none
    else return Operator.ofToken? token
  | none => return none

/-- What an operator makes of its left operand and what comes next. -/
def infixForm (g : Nested) (lhs : Expr) : Operator → Parser Form
  | .where_ => do
    advance
    return .where_ lhs (← whereBody g)
  | .arrow => do
    advance
    return .arrow lhs (← right .arrow)
  | .injection => do
    advance
    return .injection lhs (← right .injection)
  | .application => return .application lhs (← right .application) false
  | .explicitApplication => do
    advance
    return .application lhs (← right .explicitApplication) true
  | .union => do
    let others ← many (after (.symbol .union) (right .union))
    return .union (lhs :: others)
  | .extraction => do
    advance
    return .extraction lhs (← right .extraction)
where
  right (op : Operator) : Parser Expr := g.expr op.rightMin

/-- The expression that an operator makes, from the start of its left operand. -/
def infixExpr (g : Nested) (lhs : Expr) (op : Operator) : Parser Expr := do
  let form ← infixForm g lhs op
  return ⟨form, (← get).spanFrom lhs.span.start⟩

/-- A larger expression with `lhs` as its left operand, if the next operator is at least as
    strong as wanted. -/
def extend? (g : Nested) (least : Prec) (lhs : Expr) : Parser (Option Expr) := do
  match ← operator? with
  | some op => if op.prec < least then return none else some <$> infixExpr g lhs op
  | none => return none

/-- An expression of a least strength. -/
def expr (g : Nested) (least : Prec) : Parser Expr := do
  grow (extend? g least) (← operand g least)

end Grammar

namespace Nested

/-- Reads nothing. -/
def none_ : Nested := ⟨fun _ => Grammar.unexpected "expression", fun _ => Grammar.unexpected "expression"⟩

/-- What can be nested `n` deep. -/
def upTo : Nat → Nested
  | 0 => none_
  | n + 1 =>
    let g := upTo n
    ⟨Grammar.expr g, Grammar.tuple g⟩

end Nested

/-- How to read the forms nested in a reading: no deeper than there are tokens left. -/
def Reading.nested (s : Reading) : Nested := Nested.upTo (s.rest.length + 1)

/-- An expression of any strength. -/
def Grammar.expression : Parser Expr := do (← get).nested.expr .bottom

end Mim
