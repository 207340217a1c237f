import LineCalc.Number
import LineCalc.Reading.Rule

/-!
# Values of literals

An integer literal has the value of its digits in its base, if that fits. A float literal has the
float nearest to the decimal it writes, whatever its size.
-/

namespace LineCalc

/-- The value of a digit, in any base up to 16. -/
def digitValue (c : Char) : Nat :=
  if c.isDigit then c.toNat - '0'.toNat
  else if 'a' ≤ c then c.toNat - 'a'.toNat + 10
  else c.toNat - 'A'.toNat + 10

/-- The value of digits in a base. -/
def digitsValue (base : Nat) (digits : List Char) : Nat :=
  digits.foldl (fun value c => base * value + digitValue c) 0

/-- The integer written by digits in a base, if it fits. -/
def integerValue? (base : Nat) (digits : List Char) : Option Number :=
  let value := digitsValue base digits
  if value < Nat.pow 2 63 then some (.int (Int64.ofNat value)) else none

/-- The integer written with a mark for its base. -/
def nondecimalValue? : List Char → Option Number
  | _ :: mark :: digits => integerValue? (if mark = 'o' ∨ mark = 'O' then 8 else 16) digits
  | _ => none

/-- The value of the digits of an exponent. Past `0xFFFF` it is far out of the range of floats, and
further digits no longer count. -/
def exponentValue (digits : List Char) : Nat :=
  digits.foldl (fun value c => if value < 0x10000 then 10 * value + digitValue c else value) 0

/-- The exponent that ends a literal. -/
def exponentPart : List Char → Int
  | _ :: '-' :: digits => -exponentValue digits
  | _ :: '+' :: digits => exponentValue digits
  | _ :: digits => exponentValue digits
  | [] => 0

/-- The digits after the point, and what follows them. -/
def fractionPart : List Char → List Char × List Char
  | '.' :: rest => rest.span Char.isDigit
  | rest => ([], rest)

/-- The float written with a point or an exponent. -/
def floatValue (lexeme : List Char) : Float :=
  let (whole, afterWhole) := lexeme.span Char.isDigit
  let (fraction, tail) := fractionPart afterWhole
  let digits := whole ++ fraction
  Binary64.ofDecimal (digitsValue 10 digits) digits.length (exponentPart tail - fraction.length)

end LineCalc
