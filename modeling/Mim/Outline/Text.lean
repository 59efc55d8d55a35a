import Mim.Escaped
import Mim.Outline
import Mim.Outline.Json

/-! # Outlines as text

Records and variants with their names, each value on a line of its own and closed
by a comma.
-/

namespace Mim.Outline

mutual

/-- Writes an outline after `out`, inside of so much indentation. -/
def addText (indent : Nat) (out : String) : Outline → String
  | .record name fields =>
    newLine (addTextFields (indent + 4) (out ++ name ++ " \x7b") fields) indent ++ "\x7d"
  | .bare name => out ++ name
  | .variant name value => addWrapped indent (out ++ name) value
  | .absent => out ++ "None"
  | .present value => addWrapped indent (out ++ "Some") value
  | .list [] => out ++ "[]"
  | .list items => newLine (addTextItems (indent + 4) (out ++ "[") items) indent ++ "]"
  | .text value => out ++ Escaped.quoted value
  | .char value => out ++ Escaped.quotedChar value
  | .int value => out ++ String.ofList (Numeral.intText value)
  | .nat value => out ++ String.ofList (Numeral.natText value)
  | .float value => out ++ String.ofList (Numeral.floatText value)
  | .flag value => out ++ (if value then "true" else "false")

/-- A value in parentheses. -/
def addWrapped (indent : Nat) (out : String) (value : Outline) : String :=
  newLine (addText (indent + 4) (newLine (out ++ "(") (indent + 4)) value ++ ",") indent ++ ")"

def addTextFields (indent : Nat) (out : String) : List Field → String
  | [] => out
  | ⟨name, value⟩ :: fields =>
    let out := addText indent (newLine out indent ++ name ++ ": ") value
    addTextFields indent (out ++ ",") fields

def addTextItems (indent : Nat) (out : String) : List Outline → String
  | [] => out
  | o :: os => addTextItems indent (addText indent (newLine out indent) o ++ ",") os

end

def plainText (o : Outline) : String := addText 0 "" o

end Mim.Outline
