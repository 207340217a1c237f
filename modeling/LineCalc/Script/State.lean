import LineCalc.Bindings
import LineCalc.Event

/-!
# Scripts under evaluation

A `Script` is a text on its way to being evaluated: the readings that are still to come, the tokens
looked at but not yet taken, the outputs that wait to be handed over, and what is known of the
statement at hand. Tokens are read only when they are looked at, and a lexical diagnostic is
reported at the moment when it is read.

Some steps cannot happen, such as looking for a token behind the end of the input. They are told
apart from all others as a `Breach`.
-/

namespace LineCalc

/-- What a script puts out. -/
inductive Output where
  /-- The value of a statement. -/
  | value (n : Number)
  /-- A problem. -/
  | diagnostic (d : Diagnostic)
deriving BEq, Repr

/-- A step that no script can lead to. -/
inductive Breach where
  /-- There is no token, not even the one at the end of the input. -/
  | noToken
  /-- The payload of a token does not belong to its kind. -/
  | payload
  /-- More nesting was left than was entered. -/
  | depth
  /-- More expressions are open than nesting allows. -/
  | calls
  /-- A loop turned more often than there are tokens. -/
  | turns
deriving DecidableEq, Repr

/-- A script under evaluation. -/
structure Script where
  /-- What is still to be read. -/
  unread : List Reading
  /-- The number of readings of the whole text. No loop over its tokens turns much more often. -/
  size : Nat
  /-- Tokens that were looked at and not yet taken. -/
  lookahead : List Token := []
  /-- Outputs that are still to be handed over. -/
  queue : List Output := []
  /-- The first operation of the statement at hand that has no value. -/
  fault : Option Diagnostic := none
  /-- A fatal diagnostic to be handed over after the queue. -/
  failure : Option Diagnostic := none
  /-- How many signs, calls and parentheses are open. -/
  depth : Nat := 0
  /-- Is no further statement to be evaluated? -/
  halted : Bool := false
  /-- Has the end of the input been reached? -/
  finished : Bool := false
  readTally : ReadTally := {}
  evalTally : EvalTally := {}
  /-- What was done, the last event first. -/
  log : List Event := []

namespace Script

/-- The script with the given readings. -/
def ofReadings (readings : List Reading) : Script where
  unread := readings
  size := readings.length

/-- The script with the given text. -/
def ofText (names : NameGrammar) (source : String) : Script :=
  ofReadings (Reading.ofText names source)

/-- Adds an event to the log. -/
def logged (s : Script) (e : Event) : Script := { s with log := e :: s.log }

/-- Puts out a diagnostic that is not fatal. -/
def report (s : Script) (d : Diagnostic) : Script :=
  { s.logged (.diagnostic d) with
    queue := s.queue ++ [.diagnostic d]
    evalTally := s.evalTally + { diagnostics := 1 } }

/-- Reads one more item: a token is there to be looked at, a diagnostic is reported. -/
def absorb (s : Script) (r : Reading) : Script :=
  let s := { s with
    readTally := s.readTally + r.tally
    log := (r.chunks.map Chunk.event).reverse ++ s.log }
  match r.item with
  | .ok t => { s with lookahead := s.lookahead ++ [t] }
  | .error d => s.report d

/-- Reads on until more than `n` tokens can be looked at. Behind the last reading the last token
stands for all that follow; if there is none, there is no result. -/
def fillFrom (n : Nat) : List Reading → Script → Option Script
  | [], s =>
    s.lookahead.getLast?.map fun last => { s with
      unread := []
      lookahead := s.lookahead ++ List.replicate (n + 1 - s.lookahead.length) last }
  | r :: rest, s =>
    if n < s.lookahead.length then some { s with unread := r :: rest }
    else fillFrom n rest (s.absorb r)

/-- Takes the token `t`, the next one. The end of the input stays where it is. -/
def shift (s : Script) (t : Token) : Script :=
  { s.logged (.shift t.kind t.lexeme) with
    lookahead := if t.kind = .endOfInput then s.lookahead else s.lookahead.tail
    evalTally := s.evalTally + { tokens := 1 } }

end Script

/-! ### Taking tokens -/

/-- Steps on a script that cannot fail, if there is no breach. -/
abbrev Feed := EStateM Breach Script

namespace Feed

/-- Reads on until more than `n` tokens can be looked at. -/
def fill (n : Nat) : Feed Unit := fun s =>
  match s.fillFrom n s.unread with
  | some s => .ok () s
  | none => .error .noToken s

/-- The token `n` places ahead. -/
def peek (n : Nat) : Feed Token := do
  fill n
  match (← get).lookahead[n]? with
  | some t => return t
  | none => throw .noToken

/-- Takes the next token. -/
def advance : Feed Token := do
  let t ← peek 0
  modify (·.shift t)
  return t

/-- Adds an event to the log. -/
def emit (e : Event) : Feed Unit := modify (·.logged e)

/-- Takes tokens up to and including the end of the line, in at most `turns` turns. -/
def skipLine : (turns : Nat) → Feed Unit
  | 0 => throw .turns
  | turns + 1 => do
    match (← peek 0).kind with
    | .endOfInput => return
    | .newLine => discard advance
    | _ =>
      let _ ← advance
      skipLine turns

end Feed

/-! ### Failing -/

/-- Why an evaluation ends early. -/
inductive Stop where
  /-- The statement does not fit the grammar, or is nested too deeply. -/
  | fatal (d : Diagnostic)
  | breach (b : Breach)
deriving BEq, Repr

/-- Steps of an evaluation. What was done up to a failure stays done. -/
abbrev Eval := EStateM Stop Script

instance : MonadLift Feed Eval where
  monadLift step := EStateM.adaptExcept .breach step

namespace Eval

/-- Ends the evaluation with a fatal diagnostic. -/
def fail {α : Type} (d : Diagnostic) : Eval α := throw (.fatal d)

/-- Takes the next token, which must be of the given kind. -/
def expect (kind : TokenKind) : Eval Token := do
  let t ← Feed.peek 0
  if t.kind = kind then Feed.advance else fail (.unexpected t)

end Eval

end LineCalc
