import LineCalc.Number
import LineCalc.Span

/-!
# Tokens

A token has a kind, the payload that was decoded from its lexeme, the lexeme itself, and the span it
covers. The type lets any kind go with any payload; `Token.WellFormed` says which payload belongs to
which kind.
-/

namespace LineCalc

/-- What a lexeme is. -/
inductive TokenKind where
  /-- A name. -/
  | ident
  /-- The keyword of a function. -/
  | func
  /-- An integer in base 16 or 8. -/
  | nondecimal
  /-- A float with an exponent. -/
  | scientific
  /-- A float with a point. -/
  | float
  /-- An integer in base 10. -/
  | number
  | comment
  /-- The end of a line. -/
  | newLine
  | equals
  | plus
  | minus
  | asterisk
  | slash
  | leftParen
  | rightParen
  /-- The end of the text. -/
  | endOfInput
deriving DecidableEq, Repr

namespace TokenKind

/-- The name under which a kind is reported. -/
def name : TokenKind → String
  | .ident => "Ident"
  | .func => "Func"
  | .nondecimal => "Nondecimal"
  | .scientific => "Scientific"
  | .float => "Float"
  | .number => "Number"
  | .comment => "Comment"
  | .newLine => "NewLine"
  | .equals => "Equals"
  | .plus => "Plus"
  | .minus => "Minus"
  | .asterisk => "Asterisk"
  | .slash => "Slash"
  | .leftParen => "LeftParen"
  | .rightParen => "RightParen"
  | .endOfInput => "End"

/-- The kinds in their order. -/
def all : List TokenKind :=
  [.ident, .func, .nondecimal, .scientific, .float, .number, .comment, .newLine, .equals, .plus,
    .minus, .asterisk, .slash, .leftParen, .rightParen, .endOfInput]

/-- The kind with the given name. -/
def ofName? (name : String) : Option TokenKind :=
  all.find? fun kind => kind.name == name

/-- Is this a literal, a token that stands for a number? -/
def isLiteral : TokenKind → Bool
  | .nondecimal | .scientific | .float | .number => true
  | _ => false

end TokenKind

/-- What was decoded from a lexeme. -/
inductive Payload where
  | none
  | ident (name : String)
  | func (f : Func)
  | number (n : Number)
  | comment (text : String)
deriving BEq, Repr

/-- A lexeme with its meaning and its place. -/
structure Token where
  kind : TokenKind
  payload : Payload
  lexeme : String
  span : Span
deriving BEq, Repr

namespace Token

/-- Does the payload belong to the kind? -/
def WellFormed (t : Token) : Prop :=
  match t.kind with
  | .ident => ∃ name, t.payload = .ident name
  | .func => ∃ f, t.payload = .func f
  | .nondecimal | .scientific | .float | .number => ∃ n, t.payload = .number n
  | .comment => ∃ text, t.payload = .comment text
  | _ => t.payload = .none

/-- The token with its span widened to cover another one. -/
def mergeSpan (t : Token) (s : Span) : Token := { t with span := t.span.merge s }

end Token

end LineCalc
