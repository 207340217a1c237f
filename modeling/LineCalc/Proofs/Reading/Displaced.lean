import LineCalc.Proofs.Reading.Breaks
import LineCalc.Proofs.Reading.Tokens

/-!
# Reading a text further down

The readings of a text do not depend on where it stands, but for their places. `down k` puts a thing
`k` lines further down. The readings of a text with another one behind it are those of the first and
those of the second, put down by the lines of the first.
-/

namespace LineCalc

/-! ### Places -/

def Position.down (k : Nat) (p : Position) : Position := { p with line := p.line + k }

theorem Position.down_le_down {k : Nat} {a b : Position} : a.down k ≤ b.down k ↔ a ≤ b := by
  simp only [le_iff, down]
  omega

/-- The span, `k` lines further down. -/
def Span.down (k : Nat) (s : Span) : Span := ⟨s.start.down k, s.stop.down k⟩

theorem Span.merge_down (k : Nat) (a b : Span) :
    (a.down k).merge (b.down k) = (a.merge b).down k := by
  simp only [merge, down, Position.down_le_down, mk.injEq]
  constructor
  · split <;> rfl
  · split <;> rfl

def Token.down (k : Nat) (t : Token) : Token := { t with span := t.span.down k }

def Diagnostic.down (k : Nat) (d : Diagnostic) : Diagnostic := { d with span := d.span.down k }

/-- An output, with its place `k` lines further down. A value has no place. -/
def Output.down (k : Nat) : Output → Output
  | .value n => .value n
  | .diagnostic d => .diagnostic (d.down k)

@[simp] theorem Token.kind_down (k : Nat) (t : Token) : (t.down k).kind = t.kind := rfl

@[simp] theorem Token.payload_down (k : Nat) (t : Token) : (t.down k).payload = t.payload := rfl

namespace Cursor

/-- The cursor, `k` lines and `n` bytes further down. -/
def down (k n : Nat) (cursor : Cursor) : Cursor := ⟨cursor.offset + n, cursor.span.down k⟩

variable {k n : Nat}

theorem positionAfter_down (p : Position) (c : Char) (next : Option Char) :
    positionAfter (p.down k) c next = (positionAfter p c next).down k := by
  unfold positionAfter
  split
  · show (⟨p.line + k + 1, 1⟩ : Position) = ⟨p.line + 1 + k, 1⟩
    rw [Nat.add_right_comm]
  · rfl

theorem advance_down (cursor : Cursor) (c : Char) (next : Option Char) :
    (cursor.down k n).advance c next = (cursor.advance c next).down k n := by
  show (⟨cursor.offset + n + c.utf8Size, ⟨_, positionAfter (cursor.span.stop.down k) c next⟩⟩ :
    Cursor) = ⟨cursor.offset + c.utf8Size + n, ⟨_, _⟩⟩
  rw [Nat.add_right_comm, positionAfter_down]
  rfl

theorem advanceOver_down (cursor : Cursor) (w : List Char) :
    (cursor.down k n).advanceOver w = (cursor.advanceOver w).down k n := by
  induction w generalizing cursor with
  | nil => rfl
  | cons c w ih => rw [advanceOver_cons, advanceOver_cons, advance_down, ih]

end Cursor

/-! ### Chunks -/

namespace Chunk

variable {names : NameGrammar} {k n : Nat} {cursor cursor' : Cursor}

def down (k n : Nat) (chunk : Chunk) : Chunk := { chunk with cursor := chunk.cursor.down k n }

theorem first_down (h : cursor'.collapse = cursor.collapse.down k n) (c : Char) (rest : List Char) :
    first names cursor' c rest = (first names cursor c rest).down k n := by
  show mk _ (cursor'.collapse.advanceOver _) = mk _ ((cursor.collapse.advanceOver _).down k n)
  rw [h, Cursor.advanceOver_down]
  rfl

/-- A text is cut in the same way wherever it starts. -/
theorem cutFrom_down (h : cursor'.collapse = cursor.collapse.down k n) (skip : Nat)
    (text : List Char) :
    cutFrom names [] cursor' skip text = (cutFrom names [] cursor skip text).map (down k n) := by
  induction text generalizing cursor cursor' skip with
  | nil => cases skip <;> rfl
  | cons c rest ih =>
    cases skip with
    | succ skip => exact ih h skip
    | zero =>
      rw [cutFrom, cutFrom, cutFrom_eq_append, cutFrom_eq_append names [first ..], first_down h,
        List.map_append]
      congr 1
      exact ih rfl _

end Chunk

/-! ### Readings -/

namespace Reading

variable {k n : Nat}

def itemDown (k : Nat) : Except Diagnostic Token → Except Diagnostic Token
  | .ok t => .ok (t.down k)
  | .error d => .error (d.down k)

/-- The reading, `k` lines and `n` bytes further down. -/
def down (k n : Nat) (r : Reading) : Reading := ⟨r.chunks.map (Chunk.down k n), itemDown k r.item⟩

theorem item?_down (chunk : Chunk) : (chunk.down k n).item? = chunk.item?.map (itemDown k) := by
  obtain ⟨shape, cursor⟩ := chunk
  cases shape with
  | matched rule lexeme =>
    show (Chunk.meaning? lexeme rule).map _ = ((Chunk.meaning? lexeme rule).map _).map _
    cases Chunk.meaning? lexeme rule with
    | none => rfl
    | some m =>
      obtain ⟨kind, payload⟩ := m
      cases payload <;> rfl
  | illegal c => rfl

@[simp] theorem tally_down (r : Reading) : (r.down k n).tally = r.tally := by
  have hi : itemTally (itemDown k r.item) = itemTally r.item := by
    cases r.item <;> rfl
  show (r.chunks.map (Chunk.down k n)).foldl _ (itemTally (itemDown k r.item)) = _
  rw [hi, List.foldl_map]
  rfl

theorem readFrom_down {stop stop' : Cursor} (h : stop'.collapse = stop.collapse.down k n)
    (blanks chunks : List Chunk) :
    readFrom [] stop' (blanks.map (Chunk.down k n)) (chunks.map (Chunk.down k n)) =
      (readFrom [] stop blanks chunks).map (down k n) := by
  induction chunks generalizing stop stop' blanks with
  | nil =>
    show [Reading.mk _ (.ok ⟨_, _, _, stop'.collapse.span⟩)] = _
    rw [h]
    rfl
  | cons chunk rest ih =>
    rw [List.map_cons, readFrom, readFrom, item?_down]
    have hc : (chunk.down k n).cursor.collapse = chunk.cursor.collapse.down k n := rfl
    cases chunk.item? with
    | none => simpa using ih hc (blanks ++ [chunk])
    | some item =>
      show readFrom [_] _ [] _ = (readFrom [_] _ [] _).map _
      rw [readFrom_eq_append, readFrom_eq_append [_], List.map_append, ← ih hc []]
      simp [down]

/-- A reading of a chunk in front, behind which no blanks are left. -/
theorem readFrom_append (stop : Cursor) (blanks before : List Chunk) {last : Chunk}
    (hl : last.item? ≠ none) :
    ∃ rs r, last.item? = some r.item ∧ ∀ chunks, readFrom [] stop blanks (before ++ last :: chunks) =
      rs ++ r :: readFrom [] last.cursor [] chunks := by
  -- blanks are carried along until a chunk means something
  induction before generalizing stop blanks with
  | nil =>
    obtain ⟨item, hi⟩ := Option.ne_none_iff_exists'.mp hl
    refine ⟨[], ⟨blanks ++ [last], item⟩, hi, fun chunks => ?_⟩
    rw [List.nil_append, readFrom, hi]
    show readFrom [_] _ [] _ = _
    rw [readFrom_eq_append]
    rfl
  | cons chunk before ih =>
    cases hc : chunk.item? with
    | none =>
      obtain ⟨rs, r, hi, h⟩ := ih chunk.cursor (blanks ++ [chunk])
      refine ⟨rs, r, hi, fun chunks => ?_⟩
      rw [List.cons_append, readFrom, hc]
      exact h chunks
    | some item =>
      obtain ⟨rs, r, hi, h⟩ := ih chunk.cursor []
      refine ⟨⟨blanks ++ [chunk], item⟩ :: rs, r, hi, fun chunks => ?_⟩
      rw [List.cons_append, readFrom, hc]
      show readFrom [_] _ [] _ = _
      rw [readFrom_eq_append, h]
      rfl

theorem ofText_down (names : NameGrammar) {place : Cursor}
    (h : place.collapse = ({} : Cursor).collapse.down k n) (source : String) :
    readFrom [] place [] (Chunk.cutFrom names [] place 0 source.toList) =
      (ofText names source).map (down k n) := by
  rw [Chunk.cutFrom_down h]
  exact readFrom_down h [] _

/-- The readings of two texts, of which the first ends with its last line. -/
theorem ofText_append (names : NameGrammar) {front back : String}
    (hf : front.toList = [] ∨ Ended front.toList) (hp : Parts front.toList back.toList) :
    ∃ rs place n, ofText names front = rs ++ [⟨[], .ok (endToken place)⟩] ∧
      ofText names (front ++ back) =
        rs ++ (ofText names back).map (down (lineBreaks front.toList) n) ∧
      ∀ r, rs.getLast? = some r → ∃ t, r.item = .ok t ∧ t.kind = .newLine := by
  rcases hf with hf | hf
  · refine ⟨[], {}, 0, ?_, ?_, by simp⟩
    · rw [ofText, ofChunks, Chunk.cut, hf]
      rfl
    · have hd : readFrom [] {} [] (Chunk.cut names back.toList) = (ofText names back).map (down 0 0) :=
        ofText_down names rfl back
      rw [ofText, ofChunks, String.toList_append, hf, List.nil_append, hd]
      rfl
  · -- the last chunk in front is a line break, behind which no blanks are left to pass on
    obtain ⟨before, last, w, h₁, hw, h₂, hs⟩ :=
      Chunk.cutFrom_append names hf hp {}
    have hl : last.item? = some (.ok ⟨.newLine, .none, String.ofList w, last.span⟩) := by
      rw [Chunk.item?, hw]
      rfl
    have hn : last.item? ≠ none := by simp [hl]
    obtain ⟨rs, r, hr, h⟩ := readFrom_append {} [] before hn
    refine ⟨rs ++ [r], last.cursor, last.cursor.offset, ?_, ?_, ?_⟩
    · rw [ofText, ofChunks, Chunk.cut, h₁, h]
      simp [readFrom]
    · have hc : last.cursor.collapse =
          ({} : Cursor).collapse.down (lineBreaks front.toList) last.cursor.offset := by
        show (⟨_, ⟨last.cursor.span.stop, last.cursor.span.stop⟩⟩ : Cursor) = ⟨0 + _, ⟨_, _⟩⟩
        rw [hs, Nat.zero_add]
        rfl
      rw [ofText, ofChunks, Chunk.cut, String.toList_append, h₂, h, ofText_down names hc]
      simp
    · intro r' hr'
      rw [List.getLast?_concat] at hr'
      obtain rfl := Option.some.inj hr'
      rw [hl] at hr
      exact ⟨_, (Option.some.inj hr).symm, rfl⟩

end Reading

end LineCalc
