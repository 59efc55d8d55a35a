import Mim.Binary64
import Mim.Decimal

/-! # Numerals

The numbers that a numeral stands for, and the text in which numbers are written
back. Reading takes any text; one that is no numeral has no value.
-/

namespace Mim.Numeral

-- Powers are those of the core library here, whatever is imported besides.
attribute [local instance (2000)] instPowNat

/-- The value of one digit in a radix, letters of either case counting from ten. -/
def digit? (radix : Nat) (c : Char) : Option Nat :=
  let value :=
    if c.isDigit then c.toNat - '0'.toNat
    else if c.isLower then c.toNat - 'a'.toNat + 10
    else if c.isUpper then c.toNat - 'A'.toNat + 10
    else radix
  if value < radix then some value else none

/-- The value of a text of at least one digit and nothing else. -/
def digits? (radix : Nat) : List Char → Option Nat
  | [] => none
  | c :: cs => (c :: cs).foldlM (fun value c => (digit? radix c).map (value * radix + ·)) 0

/-- Whether a text starts with a minus, and the text after its sign, if it has one. -/
def splitSign : List Char → Bool × List Char
  | '-' :: cs => (true, cs)
  | '+' :: cs => (false, cs)
  | cs => (false, cs)

/-- The radix that a text names at its start, and the text after that. -/
def splitRadix : List Char → Nat × List Char
  | '0' :: 'b' :: cs | '0' :: 'B' :: cs => (2, cs)
  | '0' :: 'o' :: cs | '0' :: 'O' :: cs => (8, cs)
  | '0' :: 'x' :: cs | '0' :: 'X' :: cs => (16, cs)
  | cs => (10, cs)

/-- Integers of the language have 128 bits. -/
def isInt128 (v : Int) : Bool := -2 ^ (127 : Nat) ≤ v && v < 2 ^ (127 : Nat)

/-- The integer that a text stands for. A radix may stand between two signs, unless the
    first of them is a minus. -/
def int? (text : List Char) : Option Int := do
  let (minus, body) := splitSign text
  let (radix, rest) := splitRadix body
  let (innerMinus, digits) := if minus then (false, rest) else splitSign rest
  let magnitude ← digits? radix digits
  let value : Int := if minus || innerMinus then -(magnitude : Int) else magnitude
  if isInt128 value then some value else none

/-- A signed decimal integer. -/
def exponent? (cs : List Char) : Option Int :=
  let (minus, digits) := splitSign cs
  (digits? 10 digits).map fun n => if minus then -(n : Int) else n

/-- A decimal number: a sign, digits with a point among them or not, and a power of ten. -/
def decimal? (cs : List Char) : Option Binary64 := do
  let (minus, body) := splitSign cs
  let whole := body.takeWhile Char.isDigit
  let (fraction, rest) := match body.dropWhile Char.isDigit with
    | '.' :: rest => (rest.takeWhile Char.isDigit, rest.dropWhile Char.isDigit)
    | rest => ([], rest)
  let coefficient ← digits? 10 (whole ++ fraction)
  let power ← match rest with
    | [] => some 0
    | c :: rest => if c == 'e' || c == 'E' then exponent? rest else none
  Binary64.ofDecimal minus coefficient (power - fraction.length)

/-- A hexadecimal mantissa as far as it is read. -/
structure HexMantissa where
  value : Binary64
  /-- The number of digits after the point. -/
  places : Nat
  /-- Whether a point has been read. -/
  pointed : Bool

/-- One more character of a mantissa; every point after the first is passed over. -/
def HexMantissa.append (m : HexMantissa) (c : Char) : Option HexMantissa :=
  if c = '.' then some { m with pointed := true }
  else do
    let digit ← digit? 16 c
    let value ← m.value.appendHexDigit digit
    some { m with value, places := if m.pointed then m.places + 1 else m.places }

def isInt32 (v : Int) : Bool := -2 ^ (31 : Nat) ≤ v && v < 2 ^ (31 : Nat)

/-- A hexadecimal number: digits with points among them, each digit rounded as it is
    added, and a power of two of 32 bits. -/
def hexadecimal? (cs : List Char) : Option Binary64 := do
  let isMark := fun c => c == 'p' || c == 'P'
  let power ← match cs.dropWhile fun c => !isMark c with
    | [] => some 0
    | _ :: rest => exponent? rest
  let mantissa ← (cs.takeWhile fun c => !isMark c).foldlM HexMantissa.append ⟨Binary64.zero, 0, false⟩
  let scale := power - 4 * mantissa.places
  if isInt32 power && isInt32 scale then mantissa.value.scaleBy scale else none

/-- The finite number that a text stands for. A binary or octal radix is passed over, and
    its digits count as decimal ones. -/
def float? (text : List Char) : Option Binary64 :=
  let (minus, body) := splitSign text
  let (radix, rest) := splitRadix body
  let value? := if radix = 16 then hexadecimal? rest else decimal? rest
  if minus then value?.map Binary64.neg else value?

/-- In source text, numbers from a ten-thousandth up to ten to the sixteenth have no power
    of ten, a positive power has no sign, and an exact tie goes up. -/
def sourceStyle : Decimal.Style := ⟨-4, 15, false, .up⟩

def floatText (x : Binary64) : List Char := x.text sourceStyle

def natText (n : Nat) : List Char := Nat.toDigits 10 n

def intText (v : Int) : List Char :=
  if v < 0 then '-' :: natText v.natAbs else natText v.natAbs

end Mim.Numeral
