import Mim.Outline

/-! # Outlines as JSON

Records are objects, a variant is an object of one member or only its name, and
each member stands on a line of its own.
-/

namespace Mim.Outline

/-- Numbers from a hundred-thousandth up to ten to the sixteenth have no power of ten, a
    positive power has a sign, and an exact tie goes to the even digit. -/
def jsonStyle : Decimal.Style := ⟨-5, 15, true, .even⟩

/-- One character of a JSON string. -/
def jsonChar (c : Char) : List Char :=
  match c with
  | '"' => ['\\', '"']
  | '\\' => ['\\', '\\']
  | '\x08' => ['\\', 'b']
  | '\t' => ['\\', 't']
  | '\n' => ['\\', 'n']
  | '\x0c' => ['\\', 'f']
  | '\r' => ['\\', 'r']
  | c =>
    if ' ' ≤ c then [c]
    else
      let digits := Nat.toDigits 16 c.toNat
      "\\u".toList ++ List.replicate (4 - digits.length) '0' ++ digits

def jsonString (s : String) : String := String.ofList ('"' :: s.toList.flatMap jsonChar ++ ['"'])

/-- Goes to a new line with the given indentation. -/
def newLine (out : String) (indent : Nat) : String := (out.push '\n').pushn ' ' indent

mutual

/-- Writes an outline after `out`, inside of so much indentation. -/
def addJson (indent : Nat) (out : String) : Outline → String
  | .record _ fields => newLine (addJsonFields (indent + 2) (out ++ "\x7b") fields) indent ++ "\x7d"
  | .bare name => out ++ jsonString name
  | .variant name value =>
    let out := newLine (out ++ "\x7b") (indent + 2) ++ jsonString name ++ ": "
    newLine (addJson (indent + 2) out value) indent ++ "\x7d"
  | .absent => out ++ "null"
  | .present value => addJson indent out value
  | .list [] => out ++ "[]"
  | .list items => newLine (addJsonItems (indent + 2) (out ++ "[") items) indent ++ "]"
  | .text value => out ++ jsonString value
  | .char value => out ++ jsonString (String.ofList [value])
  | .int value => out ++ String.ofList (Numeral.intText value)
  | .nat value => out ++ String.ofList (Numeral.natText value)
  | .float value => out ++ String.ofList (value.text jsonStyle)
  | .flag value => out ++ (if value then "true" else "false")

def addJsonFields (indent : Nat) (out : String) : List Field → String
  | [] => out
  | ⟨name, value⟩ :: fields =>
    let out := addJson indent (newLine out indent ++ jsonString name ++ ": ") value
    addJsonFields indent (if fields.isEmpty then out else out ++ ",") fields

def addJsonItems (indent : Nat) (out : String) : List Outline → String
  | [] => out
  | o :: os =>
    let out := addJson indent (newLine out indent) o
    addJsonItems indent (if os.isEmpty then out else out ++ ",") os

end

def json (o : Outline) : String := addJson 0 "" o

end Mim.Outline
