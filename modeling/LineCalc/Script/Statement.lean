import LineCalc.Script.Expression

/-!
# Evaluating a statement

A statement takes one line: an assignment or an expression, and perhaps a comment behind it; or a
comment alone. Nothing is stored or printed before the line is known to be complete and every
operation on it to have a value.

The bindings are part of the state that a statement works on. What it stores stays stored, however
it ends.
-/

namespace LineCalc

/-- What a statement asks for. -/
inductive Deed where
  | nothing
  | print (value : Number)
  | store (name : String) (value : Number)
deriving BEq, Repr

namespace Script

/-- Prepares for the next statement: no fault of an earlier one is left, and nothing is open. -/
def cleared (s : Script) : Script := { s with fault := none, depth := 0 }

/-- Counts a statement. -/
def counted (s : Script) : Script := { s with evalTally := s.evalTally + { statements := 1 } }

/-- Puts out a value. -/
def print (s : Script) (value : Number) : Script :=
  { s.logged (.result value) with queue := s.queue ++ [.value value] }

end Script

namespace Eval

/-- The value of a whole expression. -/
def wholeExpression (scope : Scope) : Eval Number :=
  expression scope callLimit lowestPrecedence

/-- Reads a statement up to a comment behind it. Whether it is an assignment shows in its second
token. -/
def deed (scope : Scope) : Eval Deed := do
  let first ← Feed.peek 0
  let second ← Feed.peek 1
  match first.kind, second.kind with
  | .ident, .equals =>
    let _ ← Feed.advance
    let _ ← Feed.advance
    match first.payload with
    | .ident name => return .store name (← wholeExpression scope)
    | _ => throw (.breach .payload)
  | .comment, _ => return .nothing
  | _, _ => return .print (← wholeExpression scope)

/-- Takes a comment, if there is one. -/
def trailingComment : Eval Unit := do
  if (← Feed.peek 0).kind = .comment then
    match (← Feed.advance).payload with
    | .comment text => Feed.emit (.comment text)
    | _ => throw (.breach .payload)

/-- Takes the end of the line, which must come next. -/
def endLine : Eval Unit := do
  let t ← Feed.peek 0
  match t.kind with
  | .newLine => discard Feed.advance
  | .endOfInput => return
  | _ => fail (.unexpected t)

end Eval

/-! ### Storing -/

/-- What a statement works on. -/
structure Workspace where
  script : Script
  bindings : Bindings

/-- Steps of a statement. What was done up to a failure stays done, to the bindings as well. -/
abbrev Work := EStateM Stop Workspace

instance : MonadLift Eval Work where
  monadLift step := fun w =>
    match step w.script with
    | .ok a s => .ok a { w with script := s }
    | .error e s => .error e { w with script := s }

/-- What is to be expected behind a statement. -/
inductive Outlook where
  | more
  /-- The end of the input was reached. -/
  | finished
deriving DecidableEq, Repr

namespace Work

/-- A step on the script alone. -/
def onScript (f : Script → Script) : Work Unit := modify fun w => { w with script := f w.script }

/-- Gives a name its value. -/
def store (name : String) (value : Number) : Work Unit := modify fun w =>
  { script := w.script.logged (.stored name value), bindings := w.bindings.set name value }

/-- Does what a complete line asks for. A line with a fault is reported instead. -/
def perform (deed : Deed) : Work Unit := do
  match (← get).script.fault with
  | some d =>
    onScript fun s => { s with fault := none }
    onScript (·.report d)
  | none =>
    match deed with
    | .nothing => return
    | .print value => onScript (·.print value)
    | .store name value => store name value

/-- Evaluates the next statement, or passes over an empty line. -/
def statement (standIn : Span → Number) : Work Outlook := do
  onScript (·.cleared)
  match (← Feed.peek 0).kind with
  | .endOfInput => return .finished
  | .newLine =>
    let _ ← Feed.advance
    return .more
  | _ =>
    onScript (·.counted)
    let deed ← Eval.deed ⟨(← get).bindings, standIn⟩
    Eval.trailingComment
    Eval.endLine
    perform deed
    return .more

end Work

end LineCalc
