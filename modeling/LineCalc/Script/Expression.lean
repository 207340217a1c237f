import LineCalc.Script.State

/-!
# Evaluating an expression

An expression is evaluated while it is read, by precedence climbing:

* an expression is an operand followed by operators that bind tightly enough, each with its right
  operand;
* an operand is a literal, a name, a call, an expression in parentheses, or a sign and an operand.

An operation that has no value leaves a fault, of which a statement keeps the first, and the
evaluation goes on with a number in its place.

The functions for operands take the evaluation of an inner expression as an argument. Only
`Eval.expression` ties the knot; its first argument bounds the number of expressions that are open
at a time.
-/

namespace LineCalc

/-- How many signs, calls and parentheses may be open in one statement. -/
def maxNesting : Nat := 256

/-- How many expressions may be open at a time: at each level of nesting the one that was entered
and the right operands inside it, one for each precedence. -/
def callLimit : Nat := 3 * (maxNesting + 1)

/-- What an expression is evaluated with. -/
structure Scope where
  /-- The values of names. -/
  bindings : Bindings
  /-- What an operation without a value counts as, by its place. -/
  standIn : Span → Number

namespace Script

/-- Records the fault of a statement, unless it has one already. -/
def blame (s : Script) (d : Diagnostic) : Script := { s with fault := s.fault.or (some d) }

end Script

namespace Eval

/-- Enters one more level of nesting, at the next token. -/
def descend : Eval Unit := do
  if (← get).depth < maxNesting then
    modify fun s => { s with depth := s.depth + 1 }
  else
    fail (.nesting (← Feed.peek 0))

/-- Leaves a level of nesting. -/
def ascend : Eval Unit := do
  match (← get).depth with
  | 0 => throw (.breach .depth)
  | depth + 1 => modify fun s => { s with depth := depth }

/-- The value of an operation at a place, or what stands in for it. -/
def settle (scope : Scope) (place : Span) : Except ArithError Number → Eval Number
  | .ok value => return value
  | .error e => do
    modify (·.blame ⟨.arithmetic e, place⟩)
    return scope.standIn place

/-- The value of a literal. -/
def literal : Eval Number := do
  match (← Feed.advance).payload with
  | .number n => return n
  | _ => throw (.breach .payload)

/-- The value of a name. One without a value is reported and counts as zero. -/
def name (scope : Scope) : Eval Number := do
  let t ← Feed.advance
  match t.payload with
  | .ident name =>
    match scope.bindings.get? name with
    | some value => return value
    | none =>
      modify (·.report ⟨.undefined name, t.span⟩)
      return .int 0
  | _ => throw (.breach .payload)

/-- The value of a call. Its place reaches from the keyword to the closing parenthesis. -/
def call (scope : Scope) (inner : (least : Nat) → Eval Number) : Eval Number := do
  descend
  let t ← Feed.advance
  match t.payload with
  | .func f =>
    let _ ← expect .leftParen
    let arg ← inner lowestPrecedence
    let close ← expect .rightParen
    ascend
    Feed.emit (.call f arg)
    settle scope (t.mergeSpan close.span).span (f.apply arg)
  | _ => throw (.breach .payload)

/-- The value of an expression in parentheses. -/
def parenthesis (inner : (least : Nat) → Eval Number) : Eval Number := do
  descend
  let _ ← Feed.advance
  let value ← inner lowestPrecedence
  let _ ← expect .rightParen
  ascend
  return value

/-- The value of an operand without a sign. -/
def primary (scope : Scope) (inner : (least : Nat) → Eval Number) : Eval Number := do
  let t ← Feed.peek 0
  match t.kind with
  | .nondecimal | .scientific | .float | .number => literal
  | .ident => name scope
  | .func => call scope inner
  | .leftParen => parenthesis inner
  | _ => fail (.unexpected t)

/-- The value of an operand. -/
def operand (scope : Scope) (inner : (least : Nat) → Eval Number) : Eval Number := do
  match UnOp.ofKind? (← Feed.peek 0).kind with
  | none => primary scope inner
  | some op =>
    descend
    let t ← Feed.advance
    let value ← inner op.precedence
    ascend
    Feed.emit (.sign op value)
    settle scope t.span (op.apply value)

/-- The value of an expression that starts with the operand `lhs`: as long as an operator follows
whose precedence is at least `least`, it is applied to what is there and its right operand. -/
def climb (scope : Scope) (inner : (least : Nat) → Eval Number) (least : Nat) :
    (turns : Nat) → (lhs : Number) → Eval Number
  | 0, _ => throw (.breach .turns)
  | turns + 1, lhs => do
    match BinOp.ofKind? (← Feed.peek 0).kind with
    | none => return lhs
    | some op =>
      if op.precedence < least then
        return lhs
      else
        let t ← Feed.advance
        let rhs ← inner op.rightPrecedence
        Feed.emit (.operation lhs op rhs)
        let value ← settle scope t.span (op.apply lhs rhs)
        climb scope inner least turns value

/-- The value of an expression whose operators have at least the precedence `least`, with at most
`calls` expressions open inside it, itself included. -/
def expression (scope : Scope) : (calls : Nat) → (least : Nat) → Eval Number
  | 0, _ => throw (.breach .calls)
  | calls + 1, least => do
    let lhs ← operand scope (expression scope calls)
    climb scope (expression scope calls) least (← get).size lhs

end Eval

end LineCalc
