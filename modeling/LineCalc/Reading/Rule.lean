import LineCalc.Func
import LineCalc.Text.WordChar

/-!
# Lexical rules

A rule says how long a lexeme of one form is at the start of a text. The rules are tried in the
order of `Rule.all`, and the first that matches wins. The order puts a literal before any shorter
one that starts it, and keywords before names.
-/

namespace LineCalc

/-- Which words are names. -/
inductive NameGrammar where
  /-- A letter or underscore, and then letters, digits and underscores. -/
  | free
  /-- `MEM_1` to `MEM_10` only. -/
  | memorySlots
deriving DecidableEq, Repr

/-- The forms of a lexeme. -/
inductive Rule where
  | whiteSpace
  | newLine
  | comment
  | nondecimal
  | scientific
  | float
  | number
  | func
  | ident
  | equals
  | plus
  | minus
  | asterisk
  | slash
  | leftParen
  | rightParen
deriving DecidableEq, Repr

/-! ### Characters -/

/-- Is this a space or a tab? -/
def isBlank (c : Char) : Bool := c == ' ' || c == '\t'

/-- Does a line end at this character? -/
def isLineBreak (c : Char) : Bool := c == '\n' || c == '\r'

/-- Is this a digit in base 16? -/
def isHexDigit (c : Char) : Bool :=
  c.isDigit || (decide ('A' ≤ c) && decide (c ≤ 'F')) || (decide ('a' ≤ c) && decide (c ≤ 'f'))

/-- Is this a digit in base 8? -/
def isOctalDigit (c : Char) : Bool := decide ('0' ≤ c) && decide (c ≤ '7')

/-- May a name start with this character? -/
def startsName (c : Char) : Bool := c.isAlpha || c == '_'

/-- May a name go on with this character? -/
def continuesName (c : Char) : Bool := c.isAlphanum || c == '_'

/-! ### Lengths of lexemes -/

/-- A length, unless it is zero. -/
def positive? (n : Nat) : Option Nat := if n = 0 then none else some n

/-- How many characters at the start of the text have the property? -/
def runLength (p : Char → Bool) (text : List Char) : Nat := (text.takeWhile p).length

/-- A line feed, a carriage return, or the two together. -/
def lineBreakLength? : List Char → Option Nat
  | '\r' :: '\n' :: _ => some 2
  | '\r' :: _ => some 1
  | '\n' :: _ => some 1
  | _ => none

/-- Two percent signs and the rest of the line. -/
def commentLength? : List Char → Option Nat
  | '%' :: '%' :: rest => some (2 + runLength (fun c => !isLineBreak c) rest)
  | _ => none

/-- A zero, an `x` with digits in base 16 or an `o` with digits in base 8. -/
def nondecimalLength? : List Char → Option Nat
  | '0' :: mark :: rest =>
    if mark = 'x' ∨ mark = 'X' then (positive? (runLength isHexDigit rest)).map (2 + ·)
    else if mark = 'o' ∨ mark = 'O' then (positive? (runLength isOctalDigit rest)).map (2 + ·)
    else none
  | _ => none

/-- A point with digits on at least one side of it. -/
def pointedLength? (text : List Char) : Option Nat :=
  let whole := runLength Char.isDigit text
  match text.drop whole with
  | '.' :: rest =>
    let fraction := runLength Char.isDigit rest
    if whole = 0 ∧ fraction = 0 then none else some (whole + 1 + fraction)
  | _ => none

/-- Decimal digits. -/
def digitsLength? (text : List Char) : Option Nat := positive? (runLength Char.isDigit text)

/-- An `e`, perhaps a sign, and digits. -/
def exponentLength? : List Char → Option Nat
  | mark :: rest =>
    if mark = 'e' ∨ mark = 'E' then
      match rest with
      | sign :: digits =>
        if sign = '+' ∨ sign = '-' then (digitsLength? digits).map (2 + ·)
        else (digitsLength? rest).map (1 + ·)
      | [] => none
    else none
  | [] => none

/-- Digits with or without a point, and an exponent. -/
def scientificLength? (text : List Char) : Option Nat := do
  let mantissa ← pointedLength? text <|> digitsLength? text
  let exponent ← exponentLength? (text.drop mantissa)
  return mantissa + exponent

/-- A word, if it stands at the start of the text and ends there. -/
def wordLength? (word text : List Char) : Option Nat :=
  if word.isPrefixOf text && Text.wordEndsBefore (text.drop word.length) then some word.length
  else none

/-- The keyword of a function. -/
def keywordLength? (text : List Char) : Option Nat :=
  Func.all.findSome? fun f => wordLength? f.keyword.toList text

/-- The names of the memory slots. -/
def slotNames : List String :=
  ["MEM_1", "MEM_2", "MEM_3", "MEM_4", "MEM_5", "MEM_6", "MEM_7", "MEM_8", "MEM_9", "MEM_10"]

/-- A name. -/
def NameGrammar.length? : NameGrammar → List Char → Option Nat
  | .free, c :: rest => if startsName c then some (1 + runLength continuesName rest) else none
  | .free, [] => none
  | .memorySlots, text => slotNames.findSome? fun name => wordLength? name.toList text

/-- One given character. -/
def signLength? (sign : Char) : List Char → Option Nat
  | c :: _ => if c = sign then some 1 else none
  | [] => none

namespace Rule

/-- The rules in the order in which they are tried. -/
def all : List Rule :=
  [.whiteSpace, .newLine, .comment, .nondecimal, .scientific, .float, .number, .func, .ident,
    .equals, .plus, .minus, .asterisk, .slash, .leftParen, .rightParen]

/-- The name under which a rule is reported. -/
def name : Rule → String
  | .whiteSpace => "WhiteSpace"
  | .newLine => "NewLine"
  | .comment => "Comment"
  | .nondecimal => "Nondecimal"
  | .scientific => "Scientific"
  | .float => "Float"
  | .number => "Number"
  | .func => "Func"
  | .ident => "Ident"
  | .equals => "Equals"
  | .plus => "Plus"
  | .minus => "Minus"
  | .asterisk => "Asterisk"
  | .slash => "Slash"
  | .leftParen => "LeftParen"
  | .rightParen => "RightParen"

/-- The length of the lexeme of this form at the start of the text. -/
def length? (names : NameGrammar) (text : List Char) : Rule → Option Nat
  | .whiteSpace => positive? (runLength isBlank text)
  | .newLine => lineBreakLength? text
  | .comment => commentLength? text
  | .nondecimal => nondecimalLength? text
  | .scientific => scientificLength? text
  | .float => pointedLength? text
  | .number => digitsLength? text
  | .func => keywordLength? text
  | .ident => names.length? text
  | .equals => signLength? '=' text
  | .plus => signLength? '+' text
  | .minus => signLength? '-' text
  | .asterisk => signLength? '*' text
  | .slash => signLength? '/' text
  | .leftParen => signLength? '(' text
  | .rightParen => signLength? ')' text

/-- The first rule that matches at the start of the text, and the length of its lexeme. -/
def first? (names : NameGrammar) (text : List Char) : Option (Rule × Nat) :=
  all.findSome? fun rule => (rule.length? names text).map fun n => (rule, n)

theorem mem_all (rule : Rule) : rule ∈ all := by cases rule <;> decide

end Rule

/-! ### Every lexeme has a length -/

theorem pos_of_positive? {n m : Nat} (h : positive? n = some m) : 0 < m := by
  unfold positive? at h
  split at h <;> simp_all
  omega

theorem pos_of_lineBreakLength? {text : List Char} {n : Nat} (h : lineBreakLength? text = some n) :
    0 < n := by
  unfold lineBreakLength? at h
  split at h <;> simp_all <;> omega

theorem pos_of_commentLength? {text : List Char} {n : Nat} (h : commentLength? text = some n) :
    0 < n := by
  unfold commentLength? at h
  split at h <;> simp_all
  omega

theorem pos_of_nondecimalLength? {text : List Char} {n : Nat}
    (h : nondecimalLength? text = some n) : 0 < n := by
  unfold nondecimalLength? at h
  split at h
  · split at h
    · obtain ⟨m, -, rfl⟩ := Option.map_eq_some_iff.mp h
      omega
    · split at h
      · obtain ⟨m, -, rfl⟩ := Option.map_eq_some_iff.mp h
        omega
      · cases h
  · cases h

theorem pos_of_pointedLength? {text : List Char} {n : Nat} (h : pointedLength? text = some n) :
    0 < n := by
  unfold pointedLength? at h
  dsimp only at h
  split at h
  · split at h
    · cases h
    · cases h
      omega
  · cases h

theorem pos_of_digitsLength? {text : List Char} {n : Nat} (h : digitsLength? text = some n) :
    0 < n := pos_of_positive? h

theorem pos_of_exponentLength? {text : List Char} {n : Nat} (h : exponentLength? text = some n) :
    0 < n := by
  unfold exponentLength? at h
  split at h
  · split at h
    · split at h
      · split at h
        · obtain ⟨m, -, rfl⟩ := Option.map_eq_some_iff.mp h
          omega
        · obtain ⟨m, -, rfl⟩ := Option.map_eq_some_iff.mp h
          omega
      · cases h
    · cases h
  · cases h

theorem pos_of_scientificLength? {text : List Char} {n : Nat}
    (h : scientificLength? text = some n) : 0 < n := by
  unfold scientificLength? at h
  obtain ⟨mantissa, -, h⟩ := Option.bind_eq_some_iff.mp h
  obtain ⟨exponent, he, h⟩ := Option.bind_eq_some_iff.mp h
  have := pos_of_exponentLength? he
  cases h
  omega

theorem pos_of_wordLength? {word text : List Char} {n : Nat} (hw : word ≠ [])
    (h : wordLength? word text = some n) : 0 < n := by
  unfold wordLength? at h
  split at h
  · cases h
    exact List.length_pos_iff.mpr hw
  · cases h

theorem pos_of_keywordLength? {text : List Char} {n : Nat} (h : keywordLength? text = some n) :
    0 < n := by
  obtain ⟨f, -, hf⟩ := List.exists_of_findSome?_eq_some h
  refine pos_of_wordLength? ?_ hf
  cases f <;> decide

theorem NameGrammar.pos_of_length? {names : NameGrammar} {text : List Char} {n : Nat}
    (h : names.length? text = some n) : 0 < n := by
  unfold NameGrammar.length? at h
  split at h
  · split at h
    · cases h
      omega
    · cases h
  · cases h
  · obtain ⟨name, hm, hn⟩ := List.exists_of_findSome?_eq_some h
    exact pos_of_wordLength? ((by decide : ∀ name ∈ slotNames, name.toList ≠ []) name hm) hn

theorem pos_of_signLength? {sign : Char} {text : List Char} {n : Nat}
    (h : signLength? sign text = some n) : 0 < n := by
  unfold signLength? at h
  split at h
  · split at h
    · cases h
      omega
    · cases h
  · cases h

namespace Rule

theorem pos_of_length? {names : NameGrammar} {text : List Char} {rule : Rule} {n : Nat}
    (h : rule.length? names text = some n) : 0 < n := by
  cases rule with
  | whiteSpace => exact pos_of_positive? h
  | newLine => exact pos_of_lineBreakLength? h
  | comment => exact pos_of_commentLength? h
  | nondecimal => exact pos_of_nondecimalLength? h
  | scientific => exact pos_of_scientificLength? h
  | float => exact pos_of_pointedLength? h
  | number => exact pos_of_digitsLength? h
  | func => exact pos_of_keywordLength? h
  | ident => exact NameGrammar.pos_of_length? h
  | equals | plus | minus | asterisk | slash | leftParen | rightParen =>
    exact pos_of_signLength? h

theorem pos_of_first? {names : NameGrammar} {text : List Char} {rule : Rule} {n : Nat}
    (h : first? names text = some (rule, n)) : 0 < n := by
  obtain ⟨r, -, hr⟩ := List.exists_of_findSome?_eq_some h
  obtain ⟨m, hm, he⟩ := Option.map_eq_some_iff.mp hr
  cases he
  exact pos_of_length? hm

end Rule

end LineCalc
