import Mim.Lexeme
import Mim.Span
import Mim.Token

/-! # Items

The tokens that the grammar sees. Doc comments are not among them: each is kept
with the token that it stands in front of.
-/

namespace Mim

/-- A token, its span, and the text of the doc comments directly in front of it, a line
    for each. -/
structure Item where
  token : Token
  span : Span
  doc : Option String
  deriving DecidableEq

namespace Item

/-- The lines of consecutive doc comments as one text; none if there are none. -/
def joinDocs : List String → Option String
  | [] => none
  | line :: lines => some ("\n".intercalate (line :: lines))

/-- The items of a sequence of lexemes that `pending` doc comments stand in front of. -/
def ofLexemesAfter (pending : List String) : List Lexeme → List Item
  | [] => []
  | x :: xs =>
    match x.token with
    | .doc line => ofLexemesAfter (pending ++ [line]) xs
    | token => ⟨token, x.span, joinDocs pending⟩ :: ofLexemesAfter [] xs

/-- The items of a sequence of lexemes. Doc comments with no token after them are dropped. -/
def ofLexemes (xs : List Lexeme) : List Item := ofLexemesAfter [] xs

end Item

end Mim
