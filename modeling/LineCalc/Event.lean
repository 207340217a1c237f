import LineCalc.Operator
import LineCalc.Reading

/-!
# The log

Reading and evaluating a script leaves a log of what was done: every lexeme, every token taken,
every operation, and every result, assignment and diagnostic.
-/

namespace LineCalc

/-- What evaluation has counted. -/
structure EvalTally where
  /-- Tokens taken. -/
  tokens : Nat := 0
  statements : Nat := 0
  /-- Diagnostics that are not fatal. -/
  diagnostics : Nat := 0
deriving DecidableEq, Repr

namespace EvalTally

instance : Add EvalTally where
  add a b := ⟨a.tokens + b.tokens, a.statements + b.statements, a.diagnostics + b.diagnostics⟩

/-- The counts in a report. -/
def text (t : EvalTally) : String :=
  s!"ParserStats \x7b tokens: {t.tokens}, statements: {t.statements}, " ++
    s!"diagnostics: {t.diagnostics} \x7d"

end EvalTally

/-- How much detail an event is. -/
inductive Level where
  | trace
  | debug
deriving DecidableEq, Repr

/-- The word for a level. -/
def Level.text : Level → String
  | .trace => "TRACE"
  | .debug => "DEBUG"

/-- Something that was done. -/
inductive Event where
  /-- A lexeme was read. -/
  | matched (rule : Rule) (lexeme : List Char) (span : Span)
  /-- A character was passed over. -/
  | illegal (c : Char) (span : Span)
  /-- A token was taken. -/
  | shift (kind : TokenKind) (lexeme : String)
  /-- An operation on two operands was done. -/
  | operation (lhs : Number) (op : BinOp) (rhs : Number)
  /-- An operation on one operand was done. -/
  | sign (op : UnOp) (operand : Number)
  /-- A function was called. -/
  | call (f : Func) (arg : Number)
  /-- A statement ended with a comment, or was one. -/
  | comment (text : String)
  /-- A diagnostic was reported. -/
  | diagnostic (d : Diagnostic)
  /-- A statement has a value to print. -/
  | result (value : Number)
  /-- A name was assigned. -/
  | stored (name : String) (value : Number)
  /-- A fatal diagnostic ended the reading of the script. -/
  | halted (d : Diagnostic)
  /-- A run ended with these counts. -/
  | summary (read : ReadTally) (eval : EvalTally)
deriving Repr

namespace Event

/-- Results, assignments and diagnostics are for debugging; the rest traces single steps. -/
def level : Event → Level
  | .diagnostic _ | .result _ | .stored _ _ | .halted _ | .summary _ _ => .debug
  | _ => .trace

/-- What was done, in words. -/
def text : Event → String
  | .matched rule lexeme span =>
    s!"MATCHED: rule {rule.name}, lexeme {Text.quoted (String.ofList lexeme)}, {span.text}"
  | .illegal c span => s!"ILLEGAL: {Text.quotedChar c} at {span.text}"
  | .shift kind lexeme => s!"SHIFT: {kind.name} {Text.quoted lexeme}"
  | .operation lhs op rhs => s!"REDUCE: {lhs.text} {op.text} {rhs.text}"
  | .sign op operand => s!"REDUCE: {op.text}{operand.text}"
  | .call f arg => s!"REDUCE: {f.keyword}({arg.text})"
  | .comment text => s!"COMMENT: Comment({Text.quoted text})"
  | .diagnostic d => s!"diagnostic: {d.message}"
  | .result value => s!"result: {value.text}"
  | .stored name value => s!"symtab: {name} = {value.text}"
  | .halted d => s!"parse halted: {d.message}"
  | .summary read eval => s!"lexer: {read.text}, parser: {eval.text}"

/-- The event as a line of the log. -/
def line (e : Event) : String := s!"{e.level.text} {e.text}"

end Event

/-- The event that a chunk leaves in the log. -/
def Chunk.event (chunk : Chunk) : Event :=
  match chunk.shape with
  | .matched rule lexeme => .matched rule lexeme chunk.span
  | .illegal c => .illegal c chunk.span

end LineCalc
