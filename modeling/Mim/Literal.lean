import Mim.Binary64
import Mim.Numeral
import Mim.Quoted

/-! # Literals

The values that a program spells out, and their text.
-/

namespace Mim

inductive Literal where
  | bool (value : Bool)
  | int (value : Int)
  | float (value : Binary64)
  | string (value : String)
  | char (value : Char)
  deriving DecidableEq

namespace Literal

/-- The text of a literal in canonical source. -/
def text : Literal → List Char
  | .bool value => if value then "tt".toList else "ff".toList
  | .int value => Numeral.intText value
  | .float value => Numeral.floatText value
  | .string value => '"' :: Quoted.encode value.toList ++ ['"']
  | .char value => '\'' :: Quoted.encodeChar value ++ ['\'']

/-- The text of a literal in messages and listings, where a string is shown as it is. -/
def display : Literal → String
  | .string value => "\"" ++ value ++ "\""
  | .char value => "'" ++ String.ofList (Quoted.asciiChar value) ++ "'"
  | literal => String.ofList literal.text

end Literal

end Mim
