import LineCalc.Token

/-!
# Operators

The operators between two operands and those before one, with their precedence: a higher one binds
tighter. All operators between operands group to the left, so that the right operand of one must
bind tighter than the operator itself.
-/

namespace LineCalc

/-- How a row of operators of one precedence is grouped. -/
inductive Assoc where
  | left
  | right
deriving DecidableEq, Repr

/-- The lowest precedence, with which a whole expression is read. -/
def lowestPrecedence : Nat := 1

/-- The precedence of the operators before an operand, above all others. -/
def signPrecedence : Nat := 3

/-- An operator between two operands. -/
inductive BinOp where
  | add
  | sub
  | mul
  | div
deriving DecidableEq, Repr

namespace BinOp

/-- The operator that a token spells. -/
def ofKind? : TokenKind → Option BinOp
  | .plus => some .add
  | .minus => some .sub
  | .asterisk => some .mul
  | .slash => some .div
  | _ => none

/-- The precedence of an operator. -/
def precedence : BinOp → Nat
  | .add | .sub => 1
  | .mul | .div => 2

/-- How an operator is grouped with others of its precedence. -/
def assoc : BinOp → Assoc
  | _ => .left

/-- The lowest precedence of an operator inside the right operand. -/
def rightPrecedence (op : BinOp) : Nat :=
  match op.assoc with
  | .left => op.precedence + 1
  | .right => op.precedence

/-- The value of an operation. -/
def apply : BinOp → Number → Number → Except ArithError Number
  | .add => Number.add
  | .sub => Number.sub
  | .mul => Number.mul
  | .div => Number.div

/-- The sign of an operator. -/
def text : BinOp → String
  | .add => "+"
  | .sub => "-"
  | .mul => "*"
  | .div => "/"

end BinOp

/-- An operator before its operand. -/
inductive UnOp where
  | plus
  | minus
deriving DecidableEq, Repr

namespace UnOp

/-- The operator that a token spells before an operand. -/
def ofKind? : TokenKind → Option UnOp
  | .plus => some .plus
  | .minus => some .minus
  | _ => none

/-- The precedence of an operator. -/
def precedence : UnOp → Nat
  | _ => signPrecedence

/-- Signs nest to the right. -/
def assoc : UnOp → Assoc
  | _ => .right

/-- The value of an operation. -/
def apply : UnOp → Number → Except ArithError Number
  | .plus => .ok
  | .minus => Number.neg

/-- The sign of an operator. -/
def text : UnOp → String
  | .plus => "+"
  | .minus => "-"

end UnOp

end LineCalc
