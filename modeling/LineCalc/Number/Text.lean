import LineCalc.Decimal.Positional
import LineCalc.Number

/-!
# Numbers as text

Integers are written in decimal. A finite float has a point and digits on both sides of it, never an
exponent: one without a fractional part is written exactly, any other by its shortest decimal.
-/

namespace LineCalc

open Binary64 Decimal

/-- The text of a finite float's sign. -/
def signText (x : Float) : List Char := if isNegative x then ['-'] else []

/-- The texts of the floats that are not finite. -/
def specialText (x : Float) : List Char :=
  if x.isNaN then ['N', 'a', 'N'] else signText x ++ ['i', 'n', 'f']

/-- A printed float shows that it is one: it has at least one digit after the point. -/
def floatText (x : Float) : List Char :=
  if x.isFinite then
    let v := magnitude x
    signText x ++ positional 1 (if v.isInteger then ofNat v.floor else shortest v)
  else specialText x

/-- The argument that an error names is written by its shortest decimal, with no fraction if it has
none. -/
def argumentText (x : Float) : List Char :=
  if x.isFinite then
    let v := magnitude x
    signText x ++ positional 0 (if v.mantissa = 0 then ofNat 0 else shortest v)
  else specialText x

namespace Number

/-- The number as it is printed. -/
def text : Number → String
  | .int n => toString n.toInt
  | .float x => String.ofList (floatText x)

instance : ToString Number := ⟨text⟩

end Number

/-- The word for what is out of range. -/
def Ranged.text : Ranged → String
  | .addition => "addition"
  | .subtraction => "subtraction"
  | .multiplication => "multiplication"
  | .negation => "negation"
  | .exp => "exp"

/-- The error in words. -/
def ArithError.message : ArithError → String
  | .divisionByZero => "division by zero"
  | .domain f arg => s!"math domain error: {f.keyword}({String.ofList (argumentText arg)})"
  | .overflow what => s!"numeric overflow in {what.text}"

end LineCalc
