/-!
# Places in a text

A `Position` is a line and a column, both counted from one. A `Span` runs from one position up to
another. A `Cursor` walks over text: it keeps the number of bytes behind it, and the span of what it
has walked over since it was last collapsed. A line ends at a line feed, at a carriage return, or at
the two together, which count once.
-/

namespace LineCalc

/-- A line and a column, both counted from one. -/
structure Position where
  line : Nat := 1
  column : Nat := 1
deriving DecidableEq, Repr

namespace Position

/-- Positions are ordered as in the text: by line, and by column within a line. -/
instance : Ord Position where
  compare a b := (compare a.line b.line).then (compare a.column b.column)

instance : LE Position := leOfOrd

instance (a b : Position) : Decidable (a ≤ b) :=
  inferInstanceAs (Decidable ((compare a b).isLE = true))

theorem le_iff {a b : Position} :
    a ≤ b ↔ a.line < b.line ∨ (a.line = b.line ∧ a.column ≤ b.column) := by
  show (compare a b).isLE ↔ _
  simp only [compare, compareOfLessAndEq]
  repeat' split
  all_goals simp [Ordering.then]
  all_goals omega

end Position

/-- The text from `start` up to, but not including, `stop`. Nothing keeps the two in order. -/
structure Span where
  start : Position := {}
  stop : Position := {}
deriving DecidableEq, Repr

namespace Span

/-- Spans are ordered by where they start, and by where they stop if they start together. -/
instance : Ord Span where
  compare a b := (compare a.start b.start).then (compare a.stop b.stop)

/-- The empty span at the end of a span. -/
def collapse (s : Span) : Span := { s with start := s.stop }

/-- The least span that covers both. -/
def merge (a b : Span) : Span where
  start := if a.start ≤ b.start then a.start else b.start
  stop := if b.stop ≤ a.stop then a.stop else b.stop

/-- A span is named by the place where it starts. -/
def text (s : Span) : String :=
  s!"line {s.start.line}, column {s.start.column}"

@[simp] theorem start_collapse (s : Span) : s.collapse.start = s.stop := rfl

@[simp] theorem stop_collapse (s : Span) : s.collapse.stop = s.stop := rfl

end Span

/-- The number of bytes of a text. -/
def byteLength : List Char → Nat
  | [] => 0
  | c :: rest => c.utf8Size + byteLength rest

@[simp] theorem byteLength_append (text text' : List Char) :
    byteLength (text ++ text') = byteLength text + byteLength text' := by
  induction text with
  | nil => simp [byteLength]
  | cons c rest ih => simp [byteLength, ih, Nat.add_assoc]

/-- A place in a text that is being read. -/
structure Cursor where
  /-- The number of bytes behind the cursor. -/
  offset : Nat := 0
  /-- What has been read since the cursor was last collapsed. -/
  span : Span := {}
deriving DecidableEq, Repr

namespace Cursor

/-- Does a line end with `c`, when `next` follows? A carriage return before a line feed leaves the
end of the line to the line feed. -/
def endsLine (c : Char) (next : Option Char) : Bool :=
  c == '\n' || (c == '\r' && next != some '\n')

/-- The position after `c`. -/
def positionAfter (p : Position) (c : Char) (next : Option Char) : Position :=
  if endsLine c next then ⟨p.line + 1, 1⟩ else ⟨p.line, p.column + 1⟩

/-- Steps over `c`, when `next` follows. -/
def advance (cursor : Cursor) (c : Char) (next : Option Char) : Cursor where
  offset := cursor.offset + c.utf8Size
  span := { cursor.span with stop := positionAfter cursor.span.stop c next }

/-- Steps over a text, of which nothing is known to follow the last character. -/
def advanceOver (cursor : Cursor) : List Char → Cursor
  | [] => cursor
  | c :: rest => (cursor.advance c rest.head?).advanceOver rest

/-- Starts a new span where the cursor stands. -/
def collapse (cursor : Cursor) : Cursor := { cursor with span := cursor.span.collapse }

@[simp] theorem advanceOver_nil (cursor : Cursor) : cursor.advanceOver [] = cursor := rfl

@[simp] theorem advanceOver_cons (cursor : Cursor) (c : Char) (rest : List Char) :
    cursor.advanceOver (c :: rest) = (cursor.advance c rest.head?).advanceOver rest := rfl

@[simp] theorem start_advance (cursor : Cursor) (c : Char) (next : Option Char) :
    (cursor.advance c next).span.start = cursor.span.start := rfl

@[simp] theorem start_advanceOver (cursor : Cursor) (text : List Char) :
    (cursor.advanceOver text).span.start = cursor.span.start := by
  induction text generalizing cursor with
  | nil => rfl
  | cons c rest ih => simp [ih]

@[simp] theorem span_collapse (cursor : Cursor) : cursor.collapse.span = cursor.span.collapse := rfl

@[simp] theorem offset_collapse (cursor : Cursor) : cursor.collapse.offset = cursor.offset := rfl

theorem offset_advanceOver (cursor : Cursor) (text : List Char) :
    (cursor.advanceOver text).offset = cursor.offset + byteLength text := by
  induction text generalizing cursor with
  | nil => simp [byteLength]
  | cons c rest ih => simp [ih, advance, byteLength, Nat.add_assoc]

end Cursor

end LineCalc
