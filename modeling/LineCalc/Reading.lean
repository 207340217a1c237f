import LineCalc.Diagnostic
import LineCalc.Reading.Chunk
import LineCalc.Reading.Literal

/-!
# Readings

A text is read as a list of tokens and lexical diagnostics, in their order. A reading is one of
these, together with the chunks that it took: its own, and the blanks before it. The last reading is
the end of the input. `flatMap_chars_ofText` says that the readings together took the whole text.
-/

namespace LineCalc

/-- What reading has counted. -/
structure ReadTally where
  chars : Nat := 0
  /-- Lexemes, blanks included. -/
  lexemes : Nat := 0
  lines : Nat := 0
  errors : Nat := 0
deriving DecidableEq, Repr

namespace ReadTally

instance : Add ReadTally where
  add a b := ⟨a.chars + b.chars, a.lexemes + b.lexemes, a.lines + b.lines, a.errors + b.errors⟩

/-- The counts in a report. -/
def text (t : ReadTally) : String :=
  s!"LexerStats \x7b chars: {t.chars}, matches: {t.lexemes}, lines: {t.lines}, " ++
    s!"errors: {t.errors} \x7d"

end ReadTally

/-- A token or a lexical diagnostic, with the chunks it was read from. -/
structure Reading where
  chunks : List Chunk
  item : Except Diagnostic Token

namespace Chunk

/-- The token that a lexeme is, if it has a payload. A literal without one is out of range. -/
def tokenOf (lexeme : String) (span : Span) (kind : TokenKind) :
    Option Payload → Except Diagnostic Token
  | some payload => .ok ⟨kind, payload, lexeme, span⟩
  | none => .error ⟨.literalRange lexeme, span⟩

/-- What is read from a lexeme: its kind and its payload. Blanks are passed over. -/
def meaning? (lexeme : List Char) : Rule → Option (TokenKind × Option Payload)
  | .whiteSpace => none
  | .newLine => some (.newLine, some .none)
  | .comment => some (.comment, some (.comment (String.ofList (lexeme.drop 2))))
  | .nondecimal => some (.nondecimal, (nondecimalValue? lexeme).map .number)
  | .scientific => some (.scientific, some (.number (.float (floatValue lexeme))))
  | .float => some (.float, some (.number (.float (floatValue lexeme))))
  | .number => some (.number, (integerValue? 10 lexeme).map .number)
  | .func =>
    some (.func, some ((Func.ofKeyword? (String.ofList lexeme)).elim .none .func))
  | .ident => some (.ident, some (.ident (String.ofList lexeme)))
  | .equals => some (.equals, some .none)
  | .plus => some (.plus, some .none)
  | .minus => some (.minus, some .none)
  | .asterisk => some (.asterisk, some .none)
  | .slash => some (.slash, some .none)
  | .leftParen => some (.leftParen, some .none)
  | .rightParen => some (.rightParen, some .none)

/-- The token or diagnostic that a chunk is. -/
def item? (chunk : Chunk) : Option (Except Diagnostic Token) :=
  match chunk.shape with
  | .matched rule lexeme =>
    (meaning? lexeme rule).map fun (kind, payload) =>
      tokenOf (String.ofList lexeme) chunk.span kind payload
  | .illegal c => some (.error ⟨.illegalChar c, chunk.span⟩)

/-- What a chunk adds to the counts, its lines and errors apart. -/
def tally (chunk : Chunk) : ReadTally where
  chars := chunk.chars.length
  lexemes :=
    match chunk.shape with
    | .matched _ _ => 1
    | .illegal _ => 0

end Chunk

namespace Reading

/-- The token at the end of the input. -/
def endToken (stop : Cursor) : Token := ⟨.endOfInput, .none, "", stop.collapse.span⟩

/-- What a token or diagnostic adds to the counts. -/
def itemTally : Except Diagnostic Token → ReadTally
  | .ok t => { lines := if t.kind = .newLine then 1 else 0 }
  | .error _ => { errors := 1 }

/-- What a reading adds to the counts. -/
def tally (r : Reading) : ReadTally :=
  r.chunks.foldl (fun sum chunk => sum + chunk.tally) (itemTally r.item)

/-- The readings from chunks, behind those already made. The cursor `stop` is behind the last chunk
that was taken, and `blanks` are the chunks passed over since the last reading. -/
def readFrom (done : List Reading) (stop : Cursor) (blanks : List Chunk) :
    List Chunk → List Reading
  | [] => (⟨blanks, .ok (endToken stop)⟩ :: done).reverse
  | chunk :: rest =>
    let taken := blanks ++ [chunk]
    match chunk.item? with
    | some item => readFrom (⟨taken, item⟩ :: done) chunk.cursor [] rest
    | none => readFrom done chunk.cursor taken rest

/-- The readings of a text that has been cut into chunks. -/
def ofChunks (chunks : List Chunk) : List Reading := readFrom [] {} [] chunks

/-- The readings of a text. -/
def ofText (names : NameGrammar) (source : String) : List Reading :=
  ofChunks (Chunk.cut names source.toList)

/-- The counts after each of the readings. -/
def runningTallies (sum : ReadTally) : List Reading → List ReadTally
  | [] => []
  | r :: rest => (sum + r.tally) :: runningTallies (sum + r.tally) rest

/-! ### The readings take the whole text -/

theorem readFrom_eq_append (done : List Reading) (stop : Cursor) (blanks chunks : List Chunk) :
    readFrom done stop blanks chunks = done.reverse ++ readFrom [] stop blanks chunks := by
  induction chunks generalizing done stop blanks with
  | nil => simp [readFrom]
  | cons chunk rest ih =>
    rw [readFrom, readFrom]
    split
    · rw [ih, ih [_]]
      simp
    · exact ih ..

theorem flatMap_chunks_readFrom (stop : Cursor) (blanks rest : List Chunk) :
    (readFrom [] stop blanks rest).flatMap chunks = blanks ++ rest := by
  induction rest generalizing stop blanks with
  | nil => simp [readFrom]
  | cons chunk rest ih =>
    rw [readFrom]
    split
    · rw [readFrom_eq_append]
      simp [ih]
    · simp [ih]

/-- What the readings took are together the text. -/
theorem flatMap_chars_ofText (names : NameGrammar) (source : String) :
    ((ofText names source).flatMap chunks).flatMap Chunk.chars = source.toList := by
  rw [ofText, ofChunks, flatMap_chunks_readFrom, List.nil_append, Chunk.flatMap_chars_cut]

end Reading

end LineCalc
