import LineCalc.Binary64
import LineCalc.Func

/-!
# Numbers

A number is a 64-bit integer or a float. Sums, differences and products of integers are integers and
must fit; with a float on either side they are floats. A quotient is always a float, and so is the
value of a function. What has no value is an `ArithError`.
-/

namespace LineCalc

/-- A value of the calculator. Equality as written by `==` keeps the kinds apart and compares floats
as floats, so that NaN differs from itself. -/
inductive Number where
  | int (n : Int64)
  | float (x : Float)
deriving BEq, Repr

/-- What can be out of range. -/
inductive Ranged where
  | addition
  | subtraction
  | multiplication
  | negation
  | exp
deriving DecidableEq, Repr

/-- Why an operation has no value. -/
inductive ArithError where
  /-- The divisor is zero, of either kind and sign. -/
  | divisionByZero
  /-- The function is not defined at the argument. -/
  | domain (f : Func) (arg : Float)
  /-- The exact result is out of range. -/
  | overflow (what : Ranged)
deriving BEq, Repr

namespace Number

/-- The kind of a number. -/
def isFloat : Number → Bool
  | .int _ => false
  | .float _ => true

/-- The number as a float. An integer becomes the nearest one. -/
def toFloat : Number → Float
  | .int n => Binary64.ofInt n.toInt
  | .float x => x

/-- Is this zero, of either kind and sign? -/
def isZero : Number → Bool
  | .int n => n == 0
  | .float x => x == 0

/-- Does an exact integer fit into 64 bits? -/
def Fits (n : Int) : Prop := Int64.minValue.toInt ≤ n ∧ n ≤ Int64.maxValue.toInt

instance (n : Int) : Decidable (Fits n) := inferInstanceAs (Decidable (_ ∧ _))

/-- The integer `n`, if it fits. -/
def exactly (what : Ranged) (n : Int) : Except ArithError Number :=
  if Fits n then .ok (.int (Int64.ofInt n)) else .error (.overflow what)

/-- An operation that is exact on two integers, and otherwise is done on floats. -/
def promoted (what : Ranged) (onInts : Int → Int → Int) (onFloats : Float → Float → Float) :
    Number → Number → Except ArithError Number
  | .int a, .int b => exactly what (onInts a.toInt b.toInt)
  | a, b => .ok (.float (onFloats a.toFloat b.toFloat))

/-- The sum. -/
def add : Number → Number → Except ArithError Number :=
  promoted .addition (· + ·) (· + ·)

/-- The difference. -/
def sub : Number → Number → Except ArithError Number :=
  promoted .subtraction (· - ·) (· - ·)

/-- The product. -/
def mul : Number → Number → Except ArithError Number :=
  promoted .multiplication (· * ·) (· * ·)

/-- The quotient, which is a float even of two integers. -/
def div (a b : Number) : Except ArithError Number :=
  if b.isZero then .error .divisionByZero else .ok (.float (a.toFloat / b.toFloat))

/-- The negative. -/
def neg : Number → Except ArithError Number
  | .int n => exactly .negation (-n.toInt)
  | .float x => .ok (.float (-x))

/-- An integer that fits is kept as it is. -/
theorem exactly_of_fits {what : Ranged} {n : Int} (h : Fits n) :
    ∃ m : Int64, exactly what n = .ok (.int m) ∧ m.toInt = n := by
  refine ⟨Int64.ofInt n, if_pos h, ?_⟩
  rw [Fits, Int64.toInt_minValue, Int64.toInt_maxValue] at h
  exact Int64.toInt_ofInt_of_le h.1 (Int.lt_of_le_sub_one h.2)

theorem exactly_of_not_fits {what : Ranged} {n : Int} (h : ¬Fits n) :
    exactly what n = .error (.overflow what) := if_neg h

end Number

/-- The value of a function. `sin` and `cos` have none at the infinities and `log` has none up to
zero; `exp` of a finite argument must not be infinite. -/
def Func.apply (f : Func) (arg : Number) : Except ArithError Number :=
  let x := arg.toFloat
  match f with
  | .sin => if x.isInf then .error (.domain .sin x) else .ok (.float x.sin)
  | .cos => if x.isInf then .error (.domain .cos x) else .ok (.float x.cos)
  | .exp =>
    let y := x.exp
    if y.isInf && x.isFinite then .error (.overflow .exp) else .ok (.float y)
  | .log => if x ≤ 0 then .error (.domain .log x) else .ok (.float x.log)

end LineCalc
