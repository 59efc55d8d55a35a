/-! # Shapes of lexemes

How many characters at the start of a text have a given shape, as many as
possible; none if the text does not start with that shape.
-/

namespace Mim.Shape

def isBlank (c : Char) : Bool :=
  c == ' ' || c == '\t' || c == '\r' || c == '\n' || c == '\x0c'

def isWordStart (c : Char) : Bool := c.isAlpha || c == '_'

def isWordChar (c : Char) : Bool := c.isAlphanum || c == '_'

def isBinaryDigit (c : Char) : Bool := c == '0' || c == '1'

def isOctalDigit (c : Char) : Bool := '0' ≤ c && c ≤ '7'

def isHexDigit (c : Char) : Bool :=
  c.isDigit || 'a' ≤ c && c ≤ 'f' || 'A' ≤ c && c ≤ 'F'

/-- Characters of one class. -/
def run (p : Char → Bool) (cs : List Char) : Nat := (cs.takeWhile p).length

/-- A word: a letter or an underscore, then letters, digits and underscores. -/
def word : List Char → Nat
  | [] => 0
  | c :: cs => if isWordStart c then 1 + run isWordChar cs else 0

def sign : List Char → Nat
  | '+' :: _ | '-' :: _ => 1
  | _ => 0

/-- A zero, a mark, and at least one digit. -/
def marked (isMark isDigit : Char → Bool) : List Char → Nat
  | '0' :: c :: cs =>
    let digits := run isDigit cs
    if isMark c && digits != 0 then 2 + digits else 0
  | _ => 0

/-- An unsigned integer, in decimal or with the mark of another radix. -/
def natural (cs : List Char) : Nat :=
  max (run Char.isDigit cs)
    (max (marked (fun c => c == 'b' || c == 'B') isBinaryDigit cs)
      (max (marked (fun c => c == 'o' || c == 'O') isOctalDigit cs)
        (marked (fun c => c == 'x' || c == 'X') isHexDigit cs)))

/-- A mark, a sign or none, and at least one decimal digit. -/
def power (isMark : Char → Bool) : List Char → Nat
  | [] => 0
  | c :: cs =>
    let digits := run Char.isDigit (cs.drop (sign cs))
    if isMark c && digits != 0 then 1 + sign cs + digits else 0

/-- Digits with one point: after them, before them or among them. -/
def pointed (isDigit : Char → Bool) (cs : List Char) : Nat :=
  let whole := run isDigit cs
  match cs.drop whole with
  | '.' :: rest =>
    let places := run isDigit rest
    if whole == 0 && places == 0 then 0 else whole + 1 + places
  | _ => 0

/-- Digits that have a point, a power, or both. -/
def fractional (isDigit isMark : Char → Bool) (cs : List Char) : Nat :=
  let point := pointed isDigit cs
  if point != 0 then point + power isMark (cs.drop point)
  else
    let whole := run isDigit cs
    let exponent := power isMark (cs.drop whole)
    if whole != 0 && exponent != 0 then whole + exponent else 0

/-- An unsigned number that is not written as an integer, in decimal or hexadecimal. -/
def real (cs : List Char) : Nat :=
  let decimal := fractional Char.isDigit (fun c => c == 'e' || c == 'E') cs
  match cs with
  | '0' :: c :: rest =>
    let hexadecimal := fractional isHexDigit (fun c => c == 'p' || c == 'P') rest
    if (c == 'x' || c == 'X') && hexadecimal != 0 then max decimal (2 + hexadecimal) else decimal
  | _ => decimal

/-- A signed number, and whether it is not written as an integer. -/
def numeral (cs : List Char) : Nat × Bool :=
  let body := cs.drop (sign cs)
  if natural body < real body then (sign cs + real body, true)
  else if natural body != 0 then (sign cs + natural body, false)
  else (0, false)

/-- The inside of a string: characters other than quotes and backslashes, and pairs of a
    backslash and any character. -/
def stringBody : List Char → Nat
  | '\\' :: _ :: cs => 2 + stringBody cs
  | c :: cs => if c == '"' || c == '\\' then 0 else 1 + stringBody cs
  | [] => 0

/-- Everything through the first end of a block comment. -/
def throughCommentEnd : List Char → Option Nat
  | '*' :: '/' :: _ => some 2
  | _ :: cs => (throughCommentEnd cs).map (· + 1)
  | [] => none

end Mim.Shape
