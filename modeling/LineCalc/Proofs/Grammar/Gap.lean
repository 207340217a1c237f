import LineCalc.Proofs.Grammar.Phrase

/-!
# Gaps in expressions

A `Gap` is a place in an expression where an operand is to come: it holds the tokens in front of it,
with the signs, calls and parentheses that are open there and the left operands that wait for a
right one. Any operand fills a gap (`Gap.fill`), so that what stands in front of it is always the
start of some expression.

Reading an expression gets stuck in a gap. A `Want` is what it has read since, and `Want.Blames`
says which token it is stuck at, and how it complains.
-/

namespace LineCalc

namespace TokenKind

/-- Does a sign, a call or a parenthesis open with this kind of token? -/
def opensLevel : TokenKind → Bool
  | .plus | .minus | .func | .leftParen => true
  | _ => false

/-- Does an operand start with this kind of token? -/
def startsOperand (kind : TokenKind) : Bool :=
  kind.opensLevel || kind.isLiteral || kind == .ident

end TokenKind

namespace Grammar

/-- A place in an expression where an operand is to come. -/
inductive Gap : Stratum → Type where
  | here : Gap .operand
  | call (f : Keyword) (opening : Opening) (g : Gap .sum) : Gap .operand
  | parenthesis (opening : Opening) (g : Gap .sum) : Gap .operand
  | sign (o : Sign) (g : Gap .operand) : Gap .operand
  | operand (g : Gap .operand) : Gap .product
  | product (lhs : Phrase .product) (o : Operator) (ho : o.IsMultiplicative) (g : Gap .operand) :
      Gap .product
  | term (g : Gap .product) : Gap .sum
  | sum (lhs : Phrase .sum) (o : Operator) (ho : o.IsAdditive) (g : Gap .product) : Gap .sum

namespace Gap

variable {st : Stratum}

/-- The tokens in front of a gap. -/
def tokens {st : Stratum} : Gap st → List Token
  | here => []
  | call f opening g => f.token :: opening.1 :: g.tokens
  | parenthesis opening g => opening.1 :: g.tokens
  | sign o g => o.token :: g.tokens
  | operand g => g.tokens
  | product lhs o _ g => lhs.tokens ++ o.token :: g.tokens
  | term g => g.tokens
  | sum lhs o _ g => lhs.tokens ++ o.token :: g.tokens

/-- How many signs, calls and parentheses are open at a gap. -/
def levels {st : Stratum} : Gap st → Nat
  | here => 0
  | call _ _ g => g.levels + 1
  | parenthesis _ g => g.levels + 1
  | sign _ g => g.levels + 1
  | operand g => g.levels
  | product _ _ _ g => g.levels
  | term g => g.levels
  | sum _ _ _ g => g.levels

/-- How many signs, calls and parentheses are open at once anywhere in front of a gap. -/
def height {st : Stratum} : Gap st → Nat
  | here => 0
  | call _ _ g => g.height + 1
  | parenthesis _ g => g.height + 1
  | sign _ g => g.height + 1
  | operand g => g.height
  | product lhs _ _ g => max lhs.height g.height
  | term g => g.height
  | sum lhs _ _ g => max lhs.height g.height

/-- The moves that are done in front of a gap. -/
def moves (scope : Scope) {st : Stratum} : Gap st → List Move
  | here => []
  | call f opening g =>
    .look 0 :: .look 0 :: .enter :: .take f.token :: .look 0 :: .take opening.1 :: g.moves scope
  | parenthesis opening g => .look 0 :: .look 0 :: .enter :: .take opening.1 :: g.moves scope
  | sign o g => .look 0 :: .enter :: .take o.token :: g.moves scope
  | operand g => g.moves scope
  | product lhs o _ g => lhs.moves scope ++ .look 0 :: .take o.token :: g.moves scope
  | term g => g.moves scope
  | sum lhs o _ g => lhs.moves scope ++ .look 0 :: .take o.token :: g.moves scope

@[simp] theorem taken_moves (scope : Scope) (g : Gap st) :
    Move.taken (g.moves scope) = g.tokens := by
  induction g <;> simp [moves, tokens, *]

theorem length_outputs_moves (scope : Scope) (g : Gap st) :
    (Move.outputs (g.moves scope)).length ≤ g.tokens.length := by
  induction g with
  | here => exact Nat.le_refl 0
  | operand _ ih | term _ ih => exact ih
  | call _ _ _ ih | parenthesis _ _ ih | sign _ _ ih =>
    simp only [moves, tokens, Move.outputs_cons, List.length_cons]
    simp
    omega
  | product lhs _ _ _ ih | sum lhs _ _ _ ih =>
    have hl := lhs.length_unbound_le scope
    simp only [moves, tokens, Move.outputs_cons, Move.outputs_append, List.length_append,
      List.length_cons]
    simp
    omega

/-- A token stands in front for each level that is open. -/
theorem levels_le_length (g : Gap st) : g.levels ≤ g.tokens.length := by
  induction g with
  | here => exact Nat.le_refl 0
  | call | parenthesis | sign | product | sum =>
    simp only [levels, tokens, List.length_append, List.length_cons]
    omega
  | operand _ ih | term _ ih => exact ih

/-- A closing parenthesis, wherever it stands. -/
def someClosing : Closing := ⟨⟨.rightParen, .none, ")", {}⟩, rfl⟩

/-- The expression with an operand in the gap, and all that is open closed behind it. -/
def fill {st : Stratum} (u : Phrase .operand) : Gap st → Phrase st
  | here => u
  | call f opening g => .primary (.call f opening (g.fill u) someClosing)
  | parenthesis opening g => .primary (.parenthesis opening (g.fill u) someClosing)
  | sign o g => .sign o (g.fill u)
  | operand g => .operand (g.fill u)
  | product lhs o ho g => .product lhs o ho (g.fill u)
  | term g => .term (g.fill u)
  | sum lhs o ho g => .sum lhs o ho (g.fill u)

theorem tokens_fill (g : Gap st) (u : Phrase .operand) :
    ∃ closers, (g.fill u).tokens = g.tokens ++ (u.tokens ++ closers) := by
  induction g with
  | here => exact ⟨[], by simp [fill, tokens]⟩
  | call f opening g ih =>
    obtain ⟨closers, h⟩ := ih
    exact ⟨closers ++ [someClosing.1], by simp [fill, tokens, Phrase.tokens, h]⟩
  | parenthesis opening g ih =>
    obtain ⟨closers, h⟩ := ih
    exact ⟨closers ++ [someClosing.1], by simp [fill, tokens, Phrase.tokens, h]⟩
  | sign o g ih | product lhs o ho g ih | sum lhs o ho g ih =>
    obtain ⟨closers, h⟩ := ih
    exact ⟨closers, by simp [fill, tokens, Phrase.tokens, h]⟩
  | operand g ih | term g ih => exact ih

theorem height_fill (g : Gap st) (u : Phrase .operand) :
    (g.fill u).height = max g.height (g.levels + u.height) := by
  induction g with
  | here => simp [fill, height, levels]
  | call | parenthesis | sign | product | sum =>
    simp only [fill, height, levels, Phrase.height, *]
    omega
  | operand _ ih | term _ ih => exact ih

end Gap

/-! ### What is wanted -/

/-- What was read in a gap, and what it wants next. -/
inductive Want where
  /-- Nothing, and an operand. -/
  | operand
  /-- The keyword of a call, and its opening parenthesis. -/
  | bracket (f : Keyword)
  /-- A call up to its argument, and its closing parenthesis. -/
  | closeCall (f : Keyword) (opening : Opening) (arg : Phrase .sum)
  /-- A parenthesis and what it encloses, and the closing parenthesis. -/
  | close (opening : Opening) (inner : Phrase .sum)

namespace Want

/-- The tokens that were read in the gap. -/
def tokens : Want → List Token
  | operand => []
  | bracket f => [f.token]
  | closeCall f opening arg => f.token :: opening.1 :: arg.tokens
  | close opening inner => opening.1 :: inner.tokens

/-- How many signs, calls and parentheses are open at once in the gap. -/
def height : Want → Nat
  | operand => 0
  | bracket _ => 1
  | closeCall _ _ arg => arg.height + 1
  | close _ inner => inner.height + 1

/-- The moves that are done in the gap, up to where `t` comes instead of what is wanted. -/
def moves (scope : Scope) (t : Token) : Want → List Move
  | operand =>
    .look 0 :: .look 0 :: if t.kind = .func ∨ t.kind = .leftParen then [.look 0] else []
  | bracket f => [.look 0, .look 0, .enter, .take f.token, .look 0]
  | closeCall f opening arg =>
    .look 0 :: .look 0 :: .enter :: .take f.token :: .look 0 :: .take opening.1 ::
      (arg.moves scope ++ [.look 0, .look 0])
  | close opening inner =>
    .look 0 :: .look 0 :: .enter :: .take opening.1 :: (inner.moves scope ++ [.look 0, .look 0])

/-- What is wanted is not the token `t`, and the diagnostic `d` says so. An operand that opens a
level is not wanted where the `levels` that are open are all there may be. -/
def Blames (levels : Nat) (t : Token) (d : Diagnostic) : Want → Prop
  | operand => (t.kind.opensLevel = true ∧ levels = maxNesting ∧ d = .nesting t) ∨
      (t.kind.startsOperand = false ∧ d = .unexpected t)
  | bracket _ => t.kind ≠ .leftParen ∧ d = .unexpected t
  | closeCall _ _ _ => t.kind ≠ .rightParen ∧ t.kind.isOperator = false ∧ d = .unexpected t
  | close _ _ => t.kind ≠ .rightParen ∧ t.kind.isOperator = false ∧ d = .unexpected t

@[simp] theorem taken_moves (scope : Scope) (t : Token) (w : Want) :
    Move.taken (w.moves scope t) = w.tokens := by
  cases w with
  | operand => by_cases h : t.kind = .func ∨ t.kind = .leftParen <;> simp [moves, tokens, h]
  | bracket | closeCall | close => simp [moves, tokens]

theorem length_outputs_moves (scope : Scope) (t : Token) (w : Want) :
    (Move.outputs (w.moves scope t)).length ≤ w.tokens.length := by
  cases w with
  | operand => by_cases h : t.kind = .func ∨ t.kind = .leftParen <;> simp [moves, tokens, h]
  | bracket => simp [moves]
  | closeCall f opening arg =>
    have ha := arg.length_unbound_le scope
    simp [moves, tokens]
    omega
  | close opening inner =>
    have hi := inner.length_unbound_le scope
    simp [moves, tokens]
    omega

/-- Only a token that is wanted as an operand can be nested too deeply. -/
theorem Blames.eq_or_eq {w : Want} {levels : Nat} {t : Token} {d : Diagnostic}
    (h : w.Blames levels t d) : d = .nesting t ∨ d = .unexpected t := by
  cases w with
  | operand =>
    obtain ⟨-, -, h⟩ | ⟨-, h⟩ := h
    · exact .inl h
    · exact .inr h
  | bracket => exact .inr h.2
  | closeCall | close => exact .inr h.2.2

/-- An operand that starts as what was read in the gap. -/
theorem exists_operand (w : Want) :
    ∃ (u : Phrase .operand) (more : List Token), u.tokens = w.tokens ++ more ∧
      u.height = w.height := by
  let zero : Literal := ⟨⟨.number, .number (.int 0), "0", {}⟩, .int 0, rfl, rfl⟩
  let left : Opening := ⟨⟨.leftParen, .none, "(", {}⟩, rfl⟩
  cases w with
  | operand => exact ⟨.primary (.literal zero), _, rfl, rfl⟩
  | bracket f =>
    exact ⟨.primary (.call f left (.term (.operand (.primary (.literal zero))))
      Gap.someClosing), _, rfl, rfl⟩
  | closeCall f opening arg =>
    exact ⟨.primary (.call f opening arg Gap.someClosing), [Gap.someClosing.1], rfl, rfl⟩
  | close opening inner =>
    exact ⟨.primary (.parenthesis opening inner Gap.someClosing), [Gap.someClosing.1], rfl, rfl⟩

end Want

end Grammar

end LineCalc
