/-!
# Floats as exact numbers

A finite float is a sign and a magnitude `mantissa * 2 ^ exponent`. `Binary64.magnitude` takes that
magnitude from the bits, and `Binary64.nearest` goes the other way: it rounds a quotient of natural
numbers to the nearest float, a tie to the even mantissa. Everything in between is exact arithmetic
on natural numbers.
-/

namespace LineCalc.Binary64

/-- The number `mantissa * 2 ^ exponent`. -/
structure Magnitude where
  mantissa : Nat
  exponent : Int
deriving DecidableEq, Repr

/-- The exponent of the smallest positive float. -/
def leastExponent : Int := -1074

/-- The bits of a float that hold its exponent. -/
def exponentField (x : Float) : Nat :=
  x.toBits.toNat / Nat.pow 2 52 % Nat.pow 2 11

/-- The bits of a float that hold its fraction. -/
def fractionField (x : Float) : Nat :=
  x.toBits.toNat % Nat.pow 2 52

/-- Is the sign bit set? Negative zero has it too. -/
def isNegative (x : Float) : Bool :=
  x.toBits.toNat / Nat.pow 2 63 == 1

/-- The magnitude of a finite float. -/
def magnitude (x : Float) : Magnitude :=
  if exponentField x = 0 then ⟨fractionField x, leastExponent⟩
  else ⟨Nat.pow 2 52 + fractionField x, leastExponent + (exponentField x - 1)⟩

namespace Magnitude

/-- The numerator of the magnitude over `denominator`. -/
def numerator (v : Magnitude) : Nat := v.mantissa * Nat.pow 2 v.exponent.toNat

/-- The power of two below `numerator`. -/
def denominator (v : Magnitude) : Nat := Nat.pow 2 (-v.exponent).toNat

/-- The integer part. -/
def floor (v : Magnitude) : Nat := v.numerator / v.denominator

/-- Is there no fractional part? -/
def isInteger (v : Magnitude) : Bool := v.numerator % v.denominator == 0

end Magnitude

/-- The quotient rounded to the nearest natural number, a tie to the even one. -/
def roundHalfEven (num den : Nat) : Nat :=
  let low := num / den
  let rest := num % den
  if 2 * rest < den ∨ (2 * rest = den ∧ low % 2 = 0) then low else low + 1

/-- The least exponent with which the mantissa of `num / den` stays below `2 ^ 53`. Neither number
is zero. -/
def roundingExponent (num den : Nat) : Int :=
  let guess : Int := (num.log2 : Int) - den.log2 - 53
  let tooSmall := den * Nat.pow 2 (53 + guess).toNat ≤ num * Nat.pow 2 (-(53 + guess)).toNat
  max leastExponent (if tooSmall then guess + 1 else guess)

/-- The bits of infinity. -/
def infinityBits : Nat := 2047 * Nat.pow 2 52

/-- The bits of the float nearest to `num / den`, a tie to the even mantissa. A mantissa that rounds
up to the next power of two carries into the exponent field, and past the last exponent the result
is infinity. -/
def nearestBits (num den : Nat) : Nat :=
  if num = 0 then 0
  else
    let e := roundingExponent num den
    let mantissa := roundHalfEven (num * Nat.pow 2 (-e).toNat) (den * Nat.pow 2 e.toNat)
    min ((e - leastExponent).toNat * Nat.pow 2 52 + mantissa) infinityBits

/-- The float nearest to `num / den`, or to its negative. -/
def nearest (negative : Bool) (num den : Nat) : Float :=
  Float.ofBits (UInt64.ofNat (nearestBits num den + if negative then Nat.pow 2 63 else 0))

/-- The float nearest to an integer. -/
def ofInt (n : Int) : Float := nearest (decide (n < 0)) n.natAbs 1

/-- The float nearest to `coefficient * 10 ^ exponent`, where the coefficient has at most `digits`
digits. Far outside the range of floats the answer is known without the power of ten. -/
def ofDecimal (coefficient digits : Nat) (exponent : Int) : Float :=
  if coefficient = 0 ∨ exponent + digits < -400 then nearest false 0 1
  else if 400 < exponent then Float.ofBits (UInt64.ofNat infinityBits)
  else nearest false (coefficient * Nat.pow 10 exponent.toNat) (Nat.pow 10 (-exponent).toNat)

end LineCalc.Binary64
