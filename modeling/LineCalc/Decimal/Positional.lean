import LineCalc.Decimal.Shortest

/-!
# Positional notation

A decimal written without an exponent: its digits, padded with zeros up to the point on either side.
-/

namespace LineCalc.Decimal

/-- The digits of a natural number, most significant first. -/
def digits (n : Nat) : List Char := Nat.toDigits 10 n

/-- `n` zeros. -/
def zeros (n : Nat) : List Char := List.replicate n '0'

/-- The digits before the point. -/
def wholeDigits (d : Decimal) : List Char :=
  digits (d.coefficient * Nat.pow 10 d.exponent.toNat / Nat.pow 10 (-d.exponent).toNat)

/-- The digits after the point. -/
def fractionDigits (d : Decimal) : List Char :=
  let width := (-d.exponent).toNat
  if width = 0 then []
  else
    let written := digits (d.coefficient % Nat.pow 10 width)
    zeros (width - written.length) ++ written

/-- Positional notation with at least `least` digits after the point, and no point before none. -/
def positional (least : Nat) (d : Decimal) : List Char :=
  let fraction := d.fractionDigits ++ zeros (least - d.fractionDigits.length)
  d.wholeDigits ++ if fraction.isEmpty then [] else '.' :: fraction

end LineCalc.Decimal
