import LineCalc.Number.Text
import LineCalc.Text.Quoted
import LineCalc.Token

/-!
# Diagnostics

A diagnostic is a problem and the span where it was met. A line that does not fit the grammar, or is
nested too deeply, ends the reading of a script: such a problem is fatal. The others are reported
and passed over.
-/

namespace LineCalc

/-- What stands where the grammar has no place for it. -/
inductive Found where
  | token (lexeme : String)
  | endOfLine
  | endOfInput
deriving DecidableEq, Repr

namespace Found

/-- What a token is called when it stands in the wrong place. -/
def ofToken (t : Token) : Found :=
  match t.kind with
  | .endOfInput => .endOfInput
  | .newLine => .endOfLine
  | _ => .token t.lexeme

/-- The words for what was found. -/
def text : Found → String
  | .token lexeme => s!"'{lexeme}'"
  | .endOfLine => "end of line"
  | .endOfInput => "EOF"

end Found

/-- What is wrong. -/
inductive Problem where
  /-- No token starts with this character. It is passed over. -/
  | illegalChar (c : Char)
  /-- An integer literal is out of range. The whole lexeme is passed over. -/
  | literalRange (lexeme : String)
  /-- A name without a value was read. It counts as zero. -/
  | undefined (name : String)
  /-- An operation has no value. -/
  | arithmetic (cause : ArithError)
  /-- The grammar has no place for what was found. -/
  | unexpected (found : Found)
  /-- What was found is an operand nested too deeply. -/
  | nesting (found : Found)
deriving BEq, Repr

/-- What is said of a name without a value. -/
def undefinedMessage (name : String) : String := s!"Undefined name '{name}'"

namespace Problem

/-- Does the problem end the reading of the script? -/
def isFatal : Problem → Bool
  | .unexpected _ | .nesting _ => true
  | _ => false

/-- The problem behind the problem, in words. -/
def cause? : Problem → Option String
  | .undefined name => some (undefinedMessage name)
  | .arithmetic cause => some cause.message
  | _ => none

/-- The problem in words. -/
def text : Problem → String
  | .illegalChar c => s!"Illegal character {Text.quotedChar c}"
  | .literalRange lexeme => s!"Literal '{lexeme}' out of range"
  | .undefined name => undefinedMessage name
  | .arithmetic cause => s!"Arithmetic error: {cause.message}"
  | .unexpected found => s!"Syntax error at {found.text}"
  | .nesting found => s!"Nesting too deep at {found.text}"

end Problem

/-- A problem and its place. -/
structure Diagnostic where
  problem : Problem
  span : Span
deriving BEq, Repr

namespace Diagnostic

/-- A token in the wrong place. -/
def unexpected (t : Token) : Diagnostic := ⟨.unexpected (.ofToken t), t.span⟩

/-- A token that would start an operand nested too deeply. -/
def nesting (t : Token) : Diagnostic := ⟨.nesting (.ofToken t), t.span⟩

/-- Does the diagnostic end the reading of the script? -/
def isFatal (d : Diagnostic) : Bool := d.problem.isFatal

/-- The problem in words, and its place. -/
def message (d : Diagnostic) : String := s!"{d.problem.text} ({d.span.text})"

instance : ToString Diagnostic := ⟨message⟩

end Diagnostic

end LineCalc
