/-
  JsonPath.Number.Binary64 — decimals rounded to double precision.

  A double is kept as its 64 bits: a sign, eleven bits of exponent, 52 of fraction.
  `ofDecimal` rounds a decimal to the nearest double, a tie to the one whose last bit
  is zero. What is too large becomes an infinity and what is too small a zero, with
  the sign kept.

  The rounding asks for the unit of the last place first: the power of two for which
  the quotient has 53 bits, or the least one there is, where that is greater. The bits
  of a positive double then are the quotient counted on from the doubles with smaller
  units, so a quotient that rounding carries up to 54 bits needs no case of its own.
-/

import JsonPath.Decimal

namespace JsonPath

structure Binary64 where
  bits : BitVec 64
  deriving DecidableEq

namespace Binary64

/-- The bits of positive infinity. -/
def infinity : Nat := 0x7FF0000000000000

/-- The least unit of the last place is two to the power of minus this. -/
def leastUnit : Nat := 1074

/-- The nearest natural number to a quotient, the even one of two. -/
def roundDiv (num den : Nat) : Nat :=
  let q := num / den
  let twice := 2 * (num % den)
  if twice < den then q
  else if den < twice then q + 1
  else q + q % 2

/-- `num / den` in units of two to the power of `unit - leastUnit`, rounded. -/
def quotient (num den unit : Nat) : Nat :=
  roundDiv (num <<< (leastUnit - unit)) (den <<< (unit - leastUnit))

/-- The least unit, counted from the least there is, in which `num / den` has at most 53 bits. -/
def unitOf (num den : Nat) : Nat :=
  let guess := num.log2 + leastUnit - (den.log2 + 53)
  if num <<< (leastUnit - guess) < den <<< (guess - leastUnit + 53) then guess else guess + 1

/-- The bits of the double nearest to `num / den`. -/
def magnitude (num den : Nat) : Nat :=
  let unit := unitOf num den
  min ((unit <<< 52) + quotient num den unit) infinity

def ofMagnitude (negative : Bool) (magnitude : Nat) : Binary64 :=
  ⟨.ofNat 64 (if negative then 0x8000000000000000 + magnitude else magnitude)⟩

/-- The double nearest to `digits` times ten to the power of `exponent`. Far enough from
    the point the exponent alone decides, and no power of ten is raised. -/
def ofDecimal (negative : Bool) (digits : Nat) (exponent : Int) : Binary64 :=
  ofMagnitude negative <|
    if digits = 0 ∨ exponent + (digits.log2 + 1 : Nat) < -400 then 0
    else if 400 < exponent then infinity
    else magnitude (digits * Decimal.power exponent.toNat) (Decimal.power (-exponent).toNat)

end Binary64

end JsonPath
