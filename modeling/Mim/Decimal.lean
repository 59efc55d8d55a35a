import Mim.Binary64

/-! # Decimal text of binary64 numbers

The fewest decimal digits that read back as a number, and the two ways of laying
them out. Which exponents are written positionally, and which way an exact tie
goes, is a `Style`.
-/

namespace Mim

-- Powers are those of the core library here, whatever is imported besides.
attribute [local instance (2000)] instPowNat

/-- The number `coefficient * 10 ^ exponent`. -/
structure Decimal where
  coefficient : Nat
  exponent : Int
  deriving DecidableEq

namespace Decimal

/-- Where a value halfway between two decimals of the fewest digits goes. -/
inductive Tie where
  | up
  | even
  deriving DecidableEq

/-- The choices of a decimal text. -/
structure Style where
  /-- The least decimal exponent written without a power of ten. -/
  leastPlain : Int
  /-- The greatest one. -/
  mostPlain : Int
  /-- Whether a positive power of ten carries a sign. -/
  plusSign : Bool
  tie : Tie

/-- The number of decimal digits. -/
def width (n : Nat) : Nat := (Nat.toDigits 10 n).length

/-- The number of digits before the point of a positive quotient; zero or less if the
    first digit comes after it. -/
def pointOf (num den : Nat) : Int :=
  if den ≤ num then width (num / den) else 1 - (width ((den - 1) / num) : Int)

/-- Whether a decimal reads back as the magnitude of `x`. -/
def readsAs (x : Binary64) (d : Decimal) : Bool :=
  Binary64.ofDecimal x.negative d.coefficient d.exponent = some x

/-- Of the two multiples of `10 ^ exponent` beside `x`, the nearest that reads back. -/
def nearest? (tie : Tie) (x : Binary64) (exponent : Int) : Option Decimal :=
  let (num, den) := x.ratio
  let unit := den * 10 ^ exponent.toNat
  let scaled := num * 10 ^ (-exponent).toNat
  let below : Decimal := ⟨scaled / unit, exponent⟩
  let above : Decimal := ⟨scaled / unit + 1, exponent⟩
  let twice := 2 * (scaled % unit)
  let preferAbove := unit < twice ||
    twice == unit && (tie == Tie.up || below.coefficient % 2 == 1)
  let order := if preferAbove then [above, below] else [below, above]
  order.find? (readsAs x)

/-- Every digit of the number. -/
def exact (x : Binary64) : Decimal :=
  if 0 ≤ x.exponent then ⟨x.mantissa * 2 ^ x.exponent.toNat, 0⟩
  else ⟨x.mantissa * 5 ^ (-x.exponent).toNat, x.exponent⟩

/-- The decimal of fewest digits that reads back, and of those the nearest. -/
def shortest (tie : Tie) (x : Binary64) : Decimal :=
  let point := pointOf x.ratio.1 x.ratio.2
  ((List.range 17).findSome? fun (n : Nat) => nearest? tie x (point - n - 1)).getD (exact x)

/-- The digits without the zeros they end in. -/
def significand (d : Decimal) : List Char :=
  ((Nat.toDigits 10 d.coefficient).reverse.dropWhile (· == '0')).reverse

/-- The decimal exponent of the first digit. -/
def leading (d : Decimal) : Int := width d.coefficient + d.exponent - 1

/-- Digits with a point after `point` of them, filled up with zeros on either side. -/
def plain (digits : List Char) (point : Int) : List Char :=
  if point ≤ 0 then "0.".toList ++ List.replicate (-point).toNat '0' ++ digits
  else
    let whole := digits.take point.toNat
    let rest := digits.drop point.toNat
    whole ++ List.replicate (point.toNat - digits.length) '0' ++
      '.' :: (if rest.isEmpty then ['0'] else rest)

/-- Digits with a point after the first of them, if there are more, and a power of ten. -/
def scientific (plusSign : Bool) (digits : List Char) (exponent : Int) : List Char :=
  let fraction := if digits.length ≤ 1 then [] else '.' :: digits.drop 1
  let sign := if exponent < 0 then ['-'] else if plusSign then ['+'] else []
  digits.take 1 ++ fraction ++ 'e' :: sign ++ Nat.toDigits 10 exponent.natAbs

def text (style : Style) (d : Decimal) : List Char :=
  if style.leastPlain ≤ d.leading ∧ d.leading ≤ style.mostPlain then
    plain d.significand (d.leading + 1)
  else scientific style.plusSign d.significand d.leading

end Decimal

/-- The text of a number: a sign, and the fewest digits that read back. -/
def Binary64.text (style : Decimal.Style) (x : Binary64) : List Char :=
  let sign := if x.negative then ['-'] else []
  if x.rank = 0 then sign ++ "0.0".toList
  else sign ++ (Decimal.shortest style.tie x).text style

end Mim
