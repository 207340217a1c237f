import LineCalc.Reading.Rule
import LineCalc.Span

/-!
# Chunks of a text

A text is cut from left to right into lexemes and, where no rule matches, single illegal characters.
No character is left out: `flatMap_chars_cut` says that the chunks together are the text.
-/

namespace LineCalc

/-- What a chunk is. -/
inductive Shape where
  /-- A lexeme of the form of a rule. -/
  | matched (rule : Rule) (lexeme : List Char)
  /-- A character at which no rule matches. -/
  | illegal (c : Char)
deriving DecidableEq, Repr

namespace Shape

/-- The text of a chunk. -/
def chars : Shape → List Char
  | .matched _ lexeme => lexeme
  | .illegal c => [c]

/-- The shape of the first chunk of `c :: rest`. -/
def first (names : NameGrammar) (c : Char) (rest : List Char) : Shape :=
  match Rule.first? names (c :: rest) with
  | some (rule, n) => .matched rule ((c :: rest).take n)
  | none => .illegal c

end Shape

/-- A piece of a text that is read as one. -/
structure Chunk where
  shape : Shape
  /-- The cursor behind the chunk. It was collapsed in front of it. -/
  cursor : Cursor
deriving DecidableEq, Repr

namespace Chunk

/-- The text of a chunk. -/
def chars (chunk : Chunk) : List Char := chunk.shape.chars

/-- The text that a chunk covers. -/
def span (chunk : Chunk) : Span := chunk.cursor.span

/-- The first chunk of `c :: rest`, which starts at the cursor. -/
def first (names : NameGrammar) (cursor : Cursor) (c : Char) (rest : List Char) : Chunk :=
  let shape := Shape.first names c rest
  ⟨shape, cursor.collapse.advanceOver shape.chars⟩

/-- The chunks of a text, behind those already cut. The first `skip` characters belong to the last
of these. -/
def cutFrom (names : NameGrammar) (done : List Chunk) (cursor : Cursor) :
    (skip : Nat) → List Char → List Chunk
  | _, [] => done.reverse
  | skip + 1, _ :: rest => cutFrom names done cursor skip rest
  | 0, c :: rest =>
    let chunk := first names cursor c rest
    cutFrom names (chunk :: done) chunk.cursor (chunk.chars.length - 1) rest

/-- The chunks of a text. -/
def cut (names : NameGrammar) (text : List Char) : List Chunk := cutFrom names [] {} 0 text

end Chunk

/-! ### The chunks are the text -/

namespace Shape

/-- The first chunk starts with the first character. -/
theorem chars_first (names : NameGrammar) (c : Char) (rest : List Char) :
    ∃ n, (first names c rest).chars = c :: rest.take n := by
  unfold first
  split
  · rename_i rule n h
    obtain ⟨m, rfl⟩ : ∃ m, n = m + 1 := ⟨n - 1, by have := Rule.pos_of_first? h; omega⟩
    exact ⟨m, rfl⟩
  · exact ⟨0, rfl⟩

end Shape

namespace Chunk

theorem chars_first (names : NameGrammar) (cursor : Cursor) (c : Char) (rest : List Char) :
    ∃ n, (first names cursor c rest).chars = c :: rest.take n :=
  Shape.chars_first names c rest

theorem cutFrom_eq_append (names : NameGrammar) (done : List Chunk) (cursor : Cursor) (skip : Nat)
    (text : List Char) :
    cutFrom names done cursor skip text = done.reverse ++ cutFrom names [] cursor skip text := by
  induction text generalizing done cursor skip with
  | nil => cases skip <;> simp [cutFrom]
  | cons c rest ih =>
    cases skip with
    | succ skip =>
      rw [cutFrom, cutFrom]
      exact ih done cursor skip
    | zero =>
      rw [cutFrom, cutFrom, ih, ih [_]]
      simp

theorem flatMap_chars_cutFrom (names : NameGrammar) (cursor : Cursor) (skip : Nat)
    (text : List Char) :
    (cutFrom names [] cursor skip text).flatMap chars = text.drop skip := by
  induction text generalizing cursor skip with
  | nil => cases skip <;> rfl
  | cons c rest ih =>
    cases skip with
    | succ skip =>
      rw [cutFrom, List.drop_succ_cons]
      exact ih cursor skip
    | zero =>
      obtain ⟨n, hn⟩ := chars_first names cursor c rest
      rw [cutFrom, cutFrom_eq_append, List.flatMap_append, ih, hn]
      simp only [List.reverse_singleton, List.flatMap_singleton, hn, List.drop_zero,
        List.cons_append, List.length_cons, Nat.add_sub_cancel, List.cons.injEq, true_and]
      rw [List.length_take]
      by_cases h : n ≤ rest.length
      · rw [Nat.min_eq_left h, List.take_append_drop]
      · rw [Nat.min_eq_right (by omega), List.take_of_length_le (by omega), List.drop_length,
          List.append_nil]

/-- The chunks of a text are together the text. -/
theorem flatMap_chars_cut (names : NameGrammar) (text : List Char) :
    (cut names text).flatMap chars = text :=
  flatMap_chars_cutFrom names {} 0 text

end Chunk

end LineCalc
