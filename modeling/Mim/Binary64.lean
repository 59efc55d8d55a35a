/-! # Binary64 numbers

The finite binary64 numbers with exact rounding. The nonnegative ones, in
increasing order, are numbered by their rank, and the rank is also the number
that their bits spell, so every rank below the bound is exactly one number.
-/

namespace Mim

-- Powers are those of the core library here, whatever is imported besides.
attribute [local instance (2000)] instPowNat

/-- A finite binary64 number: a sign, and the rank of its magnitude among the
    nonnegative finite numbers. -/
structure Binary64 where
  negative : Bool
  rank : Nat
  rank_lt : rank < 2047 * 2 ^ (52 : Nat)
  deriving DecidableEq

namespace Binary64

/-- The 64 bits, as a number. -/
def bits (x : Binary64) : Nat := (if x.negative then 2 ^ (63 : Nat) else 0) + x.rank

/-- The magnitude is `mantissa * 2 ^ exponent`. -/
def mantissa (x : Binary64) : Nat :=
  if x.rank < 2 ^ (52 : Nat) then x.rank else 2 ^ (52 : Nat) + x.rank % 2 ^ (52 : Nat)

/-- The magnitude is `mantissa * 2 ^ exponent`. -/
def exponent (x : Binary64) : Int := (max (x.rank / 2 ^ (52 : Nat)) 1 : Nat) - 1075

/-- The magnitude as a numerator and a positive denominator. -/
def ratio (x : Binary64) : Nat × Nat :=
  (x.mantissa * 2 ^ x.exponent.toNat, 2 ^ (-x.exponent).toNat)

def neg (x : Binary64) : Binary64 := { x with negative := !x.negative }

def zero : Binary64 := ⟨false, 0, by decide⟩

/-- The quotient rounded to the nearest integer, a half to the even one. -/
def divNearest (num den : Nat) : Nat :=
  let q := num / den
  let r := num % den
  if 2 * r < den then q else if den < 2 * r then q + 1 else q + q % 2

/-- The least exponent, from -1074 on, whose multiples reach the quotient with a
    mantissa below `2 ^ 53`. -/
def scaleOf (num den : Nat) : Int :=
  let guess : Int := (Nat.log2 num : Int) - Nat.log2 den - 53
  let fits := num * 2 ^ (-(guess + 53)).toNat < den * 2 ^ (guess + 53).toNat
  max (if fits then guess else guess + 1) (-1074)

/-- The rank of the nearest number to a quotient; past the bound if that is infinite.
    A mantissa that rounds up to `2 ^ 53` carries into the next scale by itself. -/
def rankOf (num den : Nat) : Nat :=
  if num = 0 then 0
  else
    let scale := scaleOf num den
    let mantissa := divNearest (num * 2 ^ (-scale).toNat) (den * 2 ^ scale.toNat)
    (scale + 1074).toNat * 2 ^ (52 : Nat) + mantissa

/-- The nearest number to a quotient, none if it is infinite. -/
def ofRatio (negative : Bool) (num den : Nat) : Option Binary64 :=
  let rank := rankOf num den
  if h : rank < 2047 * 2 ^ (52 : Nat) then some ⟨negative, rank, h⟩ else none

/-- The nearest number to `coefficient * 10 ^ exponent`. A positive coefficient is past
    every number from exponent 310 on, and far below the least one it is told
    from the bit length, so that no huge power is ever computed. -/
def ofDecimal (negative : Bool) (coefficient : Nat) (exponent : Int) : Option Binary64 :=
  if coefficient = 0 then some ⟨negative, 0, by decide⟩
  else if 309 < exponent then none
  else if (Nat.log2 coefficient : Int) + 3 * exponent < -1076 then some ⟨negative, 0, by decide⟩
  else ofRatio negative (coefficient * 10 ^ exponent.toNat) (10 ^ (-exponent).toNat)

/-- The number times `2 ^ n`, where a factor below `2 ^ -1023` counts as zero and one
    above `2 ^ 1023` as infinite. -/
def scaleBy (n : Int) (x : Binary64) : Option Binary64 :=
  if 1024 ≤ n then none
  else if n ≤ -1024 then some { zero with negative := x.negative }
  else
    let (num, den) := x.ratio
    ofRatio x.negative (num * 2 ^ n.toNat) (den * 2 ^ (-n).toNat)

/-- The nonnegative number times sixteen plus a digit, rounded. -/
def appendHexDigit (x : Binary64) (digit : Nat) : Option Binary64 :=
  let (num, den) := x.ratio
  ofRatio false (num * 16 + digit * den) den

end Binary64

end Mim
