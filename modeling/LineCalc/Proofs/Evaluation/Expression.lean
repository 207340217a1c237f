import LineCalc.Proofs.Evaluation.Outcome
import LineCalc.Proofs.Grammar.Phrase

/-!
# Evaluating the tokens of an expression

Precedence climbing on the tokens of a phrase comes to the value of the phrase, by the moves of the
phrase. The induction is on the phrase. For a product or a sum it says that the loop over operators gets
from the first operand of the chain to the value of the whole chain, whatever follows.
-/

namespace LineCalc

open Grammar Move

/-- No operator that binds tighter than `p` comes next. -/
def Follows (p : Nat) (next : Token) : Prop :=
  ∀ op, BinOp.ofKind? next.kind = some op → op.precedence ≤ p

/-- A script that has the given tokens ahead, and behind them `next`. It is not nested too deeply
for them, and large enough for all loops. -/
structure Poised (s : Script) (tokens : List Token) (height : Nat) (next : Token) : Prop where
  ahead : ∃ rest, s.ahead = tokens ++ next :: rest
  room : s.ahead.length ≤ s.size
  nesting : s.depth + height ≤ maxNesting

/-- So many calls are enough for any expression whose operators have at least the precedence
`least`, at the given depth: there is one for each of its precedences, and three for each level of
nesting inside. -/
def Affords (depth calls least : Nat) : Prop := 3 * (maxNesting - depth) + 4 ≤ calls + least

namespace Affords

variable {depth calls least : Nat}

/-- One level deeper, one call fewer is enough. -/
theorem enter (h : Affords depth (calls + 1) signPrecedence) (hd : depth < maxNesting)
    (hl : 1 ≤ least) : Affords (depth + 1) calls least := by
  unfold Affords signPrecedence at *
  omega

/-- What is left of the calls is enough for a whole expression inside. -/
theorem inside {inside : Nat} (h : Affords depth (calls + 1) signPrecedence)
    (hi : inside = depth + 1) (hd : depth < maxNesting) : Affords inside calls lowestPrecedence :=
  hi ▸ h.enter hd (by decide)

theorem operand (h : Affords depth (calls + 1) least) (hl : least ≤ signPrecedence) :
    Affords depth (calls + 1) signPrecedence := by
  unfold Affords at *
  omega

/-- For the right operand of an operator, one call fewer is enough. -/
theorem right {op : BinOp} (h : Affords depth (calls + 1) least) (hl : least ≤ op.precedence) :
    Affords depth calls op.rightPrecedence := by
  have : op.rightPrecedence = op.precedence + 1 := rfl
  unfold Affords at *
  omega

theorem exists_eq (h : Affords depth calls least) (hl : least ≤ signPrecedence) :
    ∃ n, calls = n + 1 := ⟨calls - 1, by unfold Affords signPrecedence at *; omega⟩

theorem exists_enter {inside : Nat} (least : Nat) (h : Affords depth (calls + 1) signPrecedence)
    (hi : inside = depth + 1) (hd : depth < maxNesting) (h1 : 1 ≤ least)
    (hl : least ≤ signPrecedence) :
    ∃ n, calls = n + 1 ∧ Affords inside (n + 1) least := by
  have hin : Affords (depth + 1) calls least := h.enter hd h1
  obtain ⟨n, rfl⟩ := hin.exists_eq hl
  exact ⟨n, rfl, hi ▸ hin⟩

end Affords

namespace Grammar

theorem Operator.kind_ne_endOfInput (o : Operator) : o.token.kind ≠ .endOfInput :=
  TokenKind.ne_endOfInput_of_inExpression o.inExpression

theorem Sign.kind_ne_endOfInput (o : Sign) : o.token.kind ≠ .endOfInput :=
  TokenKind.ne_endOfInput_of_inExpression o.inExpression

theorem Literal.kind_ne_endOfInput (l : Literal) : l.token.kind ≠ .endOfInput :=
  TokenKind.ne_endOfInput_of_inExpression l.inExpression

theorem isOperator_closing (closing : Closing) : closing.1.kind.isOperator = false := by
  rw [closing.2]
  rfl

/-- Before an additive operator the operand on its left is complete. -/
theorem Operator.IsAdditive.follows {o : Operator} (h : o.IsAdditive) : Follows 1 o.token := by
  intro op hop
  rw [← Operator.op_eq hop]
  exact Nat.le_of_eq (Operator.isAdditive_iff.mp h)

/-- The right operand of an operator binds tighter, as all operators group to the left. -/
theorem Operator.rightPrecedence_op (o : Operator) :
    o.op.rightPrecedence = o.op.precedence + 1 := rfl

theorem Operator.IsAdditive.rightPrecedence {o : Operator} (h : o.IsAdditive) :
    o.op.rightPrecedence = 2 := by
  rw [o.rightPrecedence_op, Operator.isAdditive_iff.mp h]

theorem Operator.IsMultiplicative.rightPrecedence {o : Operator} (h : o.IsMultiplicative) :
    o.op.rightPrecedence = signPrecedence := by
  rw [o.rightPrecedence_op, Operator.isMultiplicative_iff.mp h]
  rfl

end Grammar

namespace Eval

variable {scope : Scope} {inner : Nat → Eval Number} {s s' : Script} {t : List Move} {v rv : Number}
variable {next : Token} {rest : List Token} {least calls : Nat} {st : Stratum}

theorem yields_settle (scope : Scope) (place : Span) (r : Except ArithError Number) (s : Script) :
    Yields (settle scope place r) s ((faultOf place r).map .blame) s.depth
      (scope.settled place r) := by
  cases r with
  | ok value => exact yields_pure value s
  | error e =>
    obtain ⟨s₁, h₁, p₁, d₁⟩ := yields_blame ⟨.arithmetic e, place⟩ s
    exact ⟨s₁, by rw [settle, bind_ok h₁]; rfl, p₁, d₁⟩

/-! ### The loop over operators -/

theorem climb_stop (turns : Nat) (v : Number) (h : s.ahead = next :: rest)
    (hn : ∀ op, BinOp.ofKind? next.kind = some op → op.precedence < least) :
    Yields (climb scope inner least (turns + 1) v) s [.look 0] s.depth v := by
  rw [climb]
  refine (yields_peek_zero h).move_bind fun s₁ p₁ d₁ => ?_
  rw [← d₁]
  split
  · exact yields_pure v s₁
  · rename_i op hop
    rw [if_pos (hn op hop)]
    exact yields_pure v s₁

theorem climb_step {o : Operator} (turns : Nat) (v : Number) (h : s.ahead = o.token :: rest)
    (hl : least ≤ o.op.precedence)
    (hr : ∀ s', Progress s [.look 0, .take o.token] s' → s'.depth = s.depth →
      Yields (inner o.op.rightPrecedence) s' t s'.depth rv) :
    ∃ s', climb scope inner least (turns + 1) v s =
        climb scope inner least turns (scope.settled o.token.span (o.result v rv)) s' ∧
      Progress s (.look 0 :: .take o.token :: (t ++ .note (.operation v o.op rv) ::
        (faultOf o.token.span (o.result v rv)).map .blame)) s' ∧ s'.depth = s.depth := by
  obtain ⟨s₁, h₁, p₁, d₁⟩ := yields_peek_zero h
  obtain ⟨s₂, h₂, p₂, d₂⟩ := yields_advance (p₁.ahead_eq h) o.kind_ne_endOfInput
  obtain ⟨s₃, h₃, p₃, d₃⟩ := hr s₂ (p₁.trans p₂) (d₂.trans d₁)
  obtain ⟨s₄, h₄, p₄, d₄⟩ := yields_emit (.operation v o.op rv) s₃
  obtain ⟨s₅, h₅, p₅, d₅⟩ := yields_settle scope o.token.span (o.result v rv) s₄
  refine ⟨s₅, ?_, p₁.trans (p₂.trans (p₃.trans (p₄.trans p₅))), by omega⟩
  rw [climb, bind_ok h₁]
  simp only [o.spells]
  rw [if_neg (by omega), bind_ok h₂, bind_ok h₃, bind_ok h₄, o.apply_op, bind_ok h₅]

/-! ### Operands -/

theorem yields_literal (l : Literal) (h : s.ahead = l.token :: rest) :
    Yields literal s [.take l.token] s.depth l.value := by
  obtain ⟨s₁, h₁, p₁, d₁⟩ := yields_advance h l.kind_ne_endOfInput
  refine ⟨s₁, ?_, p₁, d₁⟩
  rw [literal, bind_ok h₁]
  simp only [l.payload]
  rfl

theorem yields_name (m : Mention) (h : s.ahead = m.token :: rest) :
    Yields (name scope) s (.take m.token :: (m.unbound scope).map .report) s.depth
      ((scope.bindings.get? m.name).getD (.int 0)) := by
  obtain ⟨s₁, h₁, p₁, d₁⟩ := yields_advance h (by simp [m.isIdent])
  cases hv : scope.bindings.get? m.name with
  | some value =>
    refine ⟨s₁, ?_, ?_, d₁⟩
    · rw [name, bind_ok h₁]
      simp only [m.payload, hv]
      rfl
    · rw [Mention.unbound, hv]
      exact p₁
  | none =>
    obtain ⟨s₂, h₂, p₂, d₂⟩ :=
      yields_report (d := ⟨.undefined m.name, m.token.span⟩) rfl s₁
    refine ⟨s₂, ?_, ?_, d₂.trans d₁⟩
    · rw [name, bind_ok h₁]
      simp only [m.payload, hv]
      rw [bind_ok h₂]
      rfl
    · rw [Mention.unbound, hv]
      exact p₁.trans p₂

theorem yields_call (scope : Scope) (f : Keyword) (opening : Opening) (closing : Closing)
    (h : s.ahead = f.token :: opening.1 :: (taken t ++ closing.1 :: rest))
    (hd : s.depth < maxNesting)
    (hr : ∀ s', Progress s [.enter, .take f.token, .look 0, .take opening.1] s' →
      s'.depth = s.depth + 1 → Yields (inner lowestPrecedence) s' t s'.depth v) :
    Yields (call scope inner) s (.enter :: .take f.token :: .look 0 :: .take opening.1 :: (t ++
        .look 0 :: .take closing.1 :: .leave :: .note (.call f.func v) ::
          (faultOf (f.place closing) (f.func.apply v)).map .blame)) s.depth
      (scope.settled (f.place closing) (f.func.apply v)) := by
  have hf : f.token.kind ≠ .endOfInput := by simp [f.isFunc]
  have ho : opening.1.kind ≠ .endOfInput := by simp [opening.2]
  have hc : closing.1.kind ≠ .endOfInput := by simp [closing.2]
  -- one step after the other: keyword, opening parenthesis, argument, closing parenthesis, result
  obtain ⟨s₁, h₁, p₁, d₁⟩ := yields_descend hd
  obtain ⟨s₂, h₂, p₂, d₂⟩ := yields_advance (p₁.ahead_eq h) hf
  have p₁₂ := p₁.trans p₂
  obtain ⟨s₃, h₃, p₃, d₃⟩ := yields_expect (p₁₂.ahead_eq h) opening.2 ho
  have p₁₃ := p₁₂.trans p₃
  obtain ⟨s₄, h₄, p₄, d₄⟩ := hr s₃ p₁₃ (by omega)
  have e₄ : s₄.ahead = closing.1 :: rest := p₄.ahead_eq (p₁₃.ahead_eq h)
  obtain ⟨s₅, h₅, p₅, d₅⟩ := yields_expect e₄ closing.2 hc
  have e₅ : s₅.depth = s.depth + 1 := by omega
  obtain ⟨s₆, h₆, p₆, d₆⟩ := yields_ascend e₅
  obtain ⟨s₇, h₇, p₇, d₇⟩ := yields_emit (.call f.func v) s₆
  obtain ⟨s₈, h₈, p₈, d₈⟩ := yields_settle scope (f.place closing) (f.func.apply v) s₇
  refine ⟨s₈, ?_, p₁₃.trans (p₄.trans (p₅.trans (p₆.trans (p₇.trans p₈)))), by omega⟩
  rw [call, bind_ok h₁, bind_ok h₂]
  simp only [f.payload]
  rw [bind_ok h₃, bind_ok h₄, bind_ok h₅, bind_ok h₆, bind_ok h₇]
  exact h₈

theorem yields_parenthesis (opening : Opening) (closing : Closing)
    (h : s.ahead = opening.1 :: (taken t ++ closing.1 :: rest)) (hd : s.depth < maxNesting)
    (hr : ∀ s', Progress s [.enter, .take opening.1] s' → s'.depth = s.depth + 1 →
      Yields (inner lowestPrecedence) s' t s'.depth v) :
    Yields (parenthesis inner) s (.enter :: .take opening.1 :: (t ++
      [.look 0, .take closing.1, .leave])) s.depth v := by
  have ho : opening.1.kind ≠ .endOfInput := by simp [opening.2]
  have hc : closing.1.kind ≠ .endOfInput := by simp [closing.2]
  obtain ⟨s₁, h₁, p₁, d₁⟩ := yields_descend hd
  obtain ⟨s₂, h₂, p₂, d₂⟩ := yields_advance (p₁.ahead_eq h) ho
  have p₁₂ := p₁.trans p₂
  obtain ⟨s₃, h₃, p₃, d₃⟩ := hr s₂ p₁₂ (by omega)
  have e₃ : s₃.ahead = closing.1 :: rest := p₃.ahead_eq (p₁₂.ahead_eq h)
  obtain ⟨s₄, h₄, p₄, d₄⟩ := yields_expect e₃ closing.2 hc
  have e₄ : s₄.depth = s.depth + 1 := by omega
  obtain ⟨s₅, h₅, p₅, d₅⟩ := yields_ascend e₄
  refine ⟨s₅, ?_, p₁₂.trans (p₃.trans (p₄.trans p₅)), by omega⟩
  rw [parenthesis, bind_ok h₁, bind_ok h₂, bind_ok h₃, bind_ok h₄, bind_ok h₅]
  rfl

theorem yields_sign (scope : Scope) (o : Sign) (h : s.ahead = o.token :: rest) (hd : s.depth < maxNesting)
    (hr : ∀ s', Progress s [.look 0, .enter, .take o.token] s' → s'.depth = s.depth + 1 →
      Yields (inner signPrecedence) s' t s'.depth v) :
    Yields (operand scope inner) s (.look 0 :: .enter :: .take o.token :: (t ++
        .leave :: .note (.sign o.op v) ::
          (faultOf o.token.span (o.result v)).map .blame)) s.depth
      (scope.settled o.token.span (o.result v)) := by
  obtain ⟨s₁, h₁, p₁, d₁⟩ := yields_peek_zero h
  obtain ⟨s₂, h₂, p₂, d₂⟩ := yields_descend (s := s₁) (by omega)
  have p₁₂ := p₁.trans p₂
  obtain ⟨s₃, h₃, p₃, d₃⟩ := yields_advance (p₁₂.ahead_eq h) o.kind_ne_endOfInput
  have p₁₃ := p₁.trans (p₂.trans p₃)
  obtain ⟨s₄, h₄, p₄, d₄⟩ := hr s₃ p₁₃ (by omega)
  have e₄ : s₄.depth = s.depth + 1 := by omega
  obtain ⟨s₅, h₅, p₅, d₅⟩ := yields_ascend e₄
  obtain ⟨s₆, h₆, p₆, d₆⟩ := yields_emit (.sign o.op v) s₅
  obtain ⟨s₇, h₇, p₇, d₇⟩ := yields_settle scope o.token.span (o.result v) s₆
  refine ⟨s₇, ?_, p₁₃.trans (p₄.trans (p₅.trans (p₆.trans p₇))), by omega⟩
  rw [operand, bind_ok h₁]
  simp only [o.spells]
  rw [bind_ok h₂, bind_ok h₃]
  change (inner signPrecedence >>= _) s₃ = _
  rw [bind_ok h₄, bind_ok h₅, bind_ok h₆, o.apply_op]
  exact h₇

theorem yields_primary_literal (l : Literal) (h : s.ahead = l.token :: rest) :
    Yields (primary scope inner) s [.look 0, .take l.token] s.depth l.value := by
  refine (yields_peek_zero h).move_bind fun s₁ p₁ d₁ => ?_
  have hy : Yields literal s₁ [.take l.token] s.depth l.value :=
    d₁ ▸ yields_literal l (p₁.ahead_eq h)
  have hl := l.isLiteral
  cases hk : l.token.kind with
  | nondecimal | scientific | float | number => exact hy
  | _ => simp [hk, TokenKind.isLiteral] at hl

theorem yields_primary_name (m : Mention) (h : s.ahead = m.token :: rest) :
    Yields (primary scope inner) s (.look 0 :: .take m.token :: (m.unbound scope).map .report) s.depth
      ((scope.bindings.get? m.name).getD (.int 0)) := by
  refine (yields_peek_zero h).move_bind fun s₁ p₁ d₁ => ?_
  simp only [m.isIdent]
  exact d₁ ▸ yields_name m (p₁.ahead_eq h)

theorem yields_operand_of_primary (h : s.ahead = next :: rest) (hk : next.kind.isSign = false)
    (hp : ∀ s', Progress s [.look 0] s' → s'.depth = s.depth →
      Yields (primary scope inner) s' t s'.depth v) :
    Yields (operand scope inner) s (.look 0 :: t) s.depth v := by
  refine (yields_peek_zero h).move_bind fun s₁ p₁ d₁ => ?_
  simp only [UnOp.ofKind?_eq_none_iff.mpr hk]
  exact d₁ ▸ hp s₁ p₁ d₁

end Eval

/-! ### Phrases -/

namespace Grammar.Phrase

/-- A primary does not start with a sign. -/
theorem exists_tokens_eq_cons (e : Phrase .primary) :
    ∃ tok rest, e.tokens = tok :: rest ∧ tok.kind.isSign = false := by
  cases e with
  | literal l =>
    refine ⟨l.token, [], rfl, ?_⟩
    have hl := l.isLiteral
    cases hk : l.token.kind <;> simp_all [TokenKind.isLiteral, TokenKind.isSign]
  | name m => exact ⟨m.token, [], rfl, by simp [m.isIdent, TokenKind.isSign]⟩
  | call f opening arg closing => exact ⟨f.token, _, rfl, by simp [f.isFunc, TokenKind.isSign]⟩
  | parenthesis opening inner closing =>
    exact ⟨opening.1, _, rfl, by simp [opening.2, TokenKind.isSign]⟩

end Grammar.Phrase

namespace Poised

variable {s s' : Script} {t : List Move} {front back : List Token} {height height' : Nat}
variable {next : Token}

theorem advance (h : Poised s (front ++ back) height next) (p : Progress s t s')
    (ht : taken t = front) (hd : s'.depth + height' ≤ s.depth + height) :
    Poised s' back height' next where
  ahead := by
    obtain ⟨rest, hr⟩ := h.ahead
    exact ⟨rest, p.ahead_eq (by rw [hr, ht, List.append_assoc])⟩
  room := p.room h.room
  nesting := Nat.le_trans hd h.nesting

end Poised

namespace Eval

open Grammar.Phrase

/-- The loop over operators gets from the first operand of the expression to the value `v`. -/
def Climbs (scope : Scope) (calls least : Nat) (s : Script) (t : List Move) (v : Number) : Prop :=
  ∃ s' turns, expression scope (calls + 1) least s =
      climb scope (expression scope calls) least turns v s' ∧
    Progress s t s' ∧ s'.depth = s.depth ∧ s'.ahead.length ≤ turns

/-- What evaluating the tokens of an expression comes to. -/
def Evaluates (scope : Scope) : {st : Stratum} → Phrase st → Prop
  | .primary, e => ∀ s calls next, Poised s e.tokens e.height next →
      Affords s.depth (calls + 1) signPrecedence →
      Yields (primary scope (expression scope calls)) s (e.moves scope) s.depth (e.value scope)
  | .operand, e => ∀ s calls next, Poised s e.tokens e.height next →
      Affords s.depth (calls + 1) signPrecedence →
      Yields (operand scope (expression scope calls)) s (e.moves scope) s.depth (e.value scope)
  | .product, e => ∀ s calls next least, Poised s e.tokens e.height next →
      Affords s.depth (calls + 1) least → least ≤ 2 →
      Climbs scope calls least s (e.moves scope) (e.value scope)
  | .sum, e => ∀ s calls next least, Poised s e.tokens e.height next →
      Affords s.depth (calls + 1) least → least ≤ 1 → Follows 1 next →
      Climbs scope calls least s (e.moves scope) (e.value scope)

theorem climbs_of_operand {u : Phrase .operand} (h : Evaluates scope u)
    (hs : Poised s u.tokens u.height next) (hc : Affords s.depth (calls + 1) least)
    (hl : least ≤ signPrecedence) :
    Climbs scope calls least s (u.moves scope) (u.value scope) := by
  obtain ⟨s₁, h₁, p₁, d₁⟩ := h s calls next hs (hc.operand hl)
  refine ⟨s₁, s₁.size, ?_, p₁, d₁, p₁.room hs.room⟩
  rw [expression, bind_ok h₁]
  rfl

/-- While a token is ahead, the loop has a turn left. -/
theorem Climbs.exists_turn (h : Climbs scope calls least s t v)
    (hs : s.ahead = taken t ++ next :: rest) :
    ∃ s' turns, expression scope (calls + 1) least s =
        climb scope (expression scope calls) least (turns + 1) v s' ∧
      Progress s t s' ∧ s'.depth = s.depth ∧ s'.ahead = next :: rest ∧ rest.length ≤ turns := by
  obtain ⟨s₁, turns, h₁, p₁, d₁, l₁⟩ := h
  have e₁ : s₁.ahead = next :: rest := p₁.ahead_eq hs
  rw [e₁, List.length_cons] at l₁
  obtain ⟨turns, rfl⟩ : ∃ n, turns = n + 1 := ⟨turns - 1, by omega⟩
  exact ⟨s₁, turns, h₁, p₁, d₁, e₁, Nat.le_of_succ_le_succ l₁⟩

/-- An operator and its right operand go on with a chain. -/
theorem Climbs.step {lt rt : List Move} {lv : Number} {o : Operator}
    (h : Climbs scope calls least s lt lv) (hs : s.ahead = taken lt ++ o.token :: rest)
    (hl : least ≤ o.op.precedence)
    (hr : ∀ s', Progress s (lt ++ [.look 0, .take o.token]) s' → s'.depth = s.depth →
      Yields (expression scope calls o.op.rightPrecedence) s' rt s'.depth rv) :
    Climbs scope calls least s
      (lt ++ .look 0 :: .take o.token :: (rt ++ .note (.operation lv o.op rv) ::
        (faultOf o.token.span (o.result lv rv)).map .blame))
      (scope.settled o.token.span (o.result lv rv)) := by
  obtain ⟨s₁, turns, h₁, p₁, d₁, e₁, l₁⟩ := h.exists_turn hs
  obtain ⟨s₂, h₂, p₂, d₂⟩ := climb_step turns lv e₁ hl
    fun s' p' d' => hr s' (p₁.trans p') (d'.trans d₁)
  refine ⟨s₂, turns, h₁.trans h₂, p₁.trans p₂, d₂.trans d₁, ?_⟩
  have := congrArg List.length p₂.ahead
  simp only [e₁, taken_cons, token?, Option.toList_none, Option.toList_some, List.length_append,
    List.length_cons] at this
  omega

/-- A chain ends where no operator follows that binds tightly enough. -/
theorem Climbs.yields (h : Climbs scope calls least s t v) (hs : s.ahead = taken t ++ next :: rest)
    (hn : ∀ op, BinOp.ofKind? next.kind = some op → op.precedence < least) :
    Yields (expression scope (calls + 1) least) s (t ++ [.look 0]) s.depth v := by
  obtain ⟨s₁, turns, h₁, p₁, d₁, e₁, -⟩ := h.exists_turn hs
  obtain ⟨s₂, h₂, p₂, d₂⟩ := climb_stop turns v e₁ hn
  exact ⟨s₂, h₁.trans h₂, p₁.trans p₂, d₂.trans d₁⟩

/-! ### The induction -/

theorem evaluates_literal (l : Literal) : Evaluates scope (.literal l) := by
  intro s calls next hs _
  obtain ⟨rest, hr⟩ := hs.ahead
  exact yields_primary_literal l hr

theorem evaluates_name (m : Mention) : Evaluates scope (.name m) := by
  intro s calls next hs _
  obtain ⟨rest, hr⟩ := hs.ahead
  exact yields_primary_name m hr

/-- A whole expression is one of the lowest precedence, before a token that is no operator. -/
theorem yields_enclosed {e : Phrase .sum} (ih : Evaluates scope e) (hs : Poised s e.tokens e.height next)
    (hc : Affords s.depth calls lowestPrecedence) (hn : next.kind.isOperator = false) :
    Yields (expression scope calls lowestPrecedence) s (e.moves scope ++ [.look 0]) s.depth
      (e.value scope) := by
  have hk : ∀ op, BinOp.ofKind? next.kind ≠ some op := by
    simp [BinOp.ofKind?_eq_none_iff.mpr hn]
  obtain ⟨rest, hr⟩ := hs.ahead
  obtain ⟨calls, rfl⟩ := hc.exists_eq (by decide)
  have h := ih s calls next lowestPrecedence hs hc (by decide) fun op hop => absurd hop (hk op)
  exact h.yields (by rw [taken_moves, hr]) fun op hop => absurd hop (hk op)

/-- In a bracket, one level further in, a whole expression stands before the closing parenthesis. -/
theorem yields_inside {e : Phrase .sum} {closing : Closing} {depth : Nat} (ih : Evaluates scope e)
    (h : s.ahead = e.tokens ++ closing.1 :: rest) (hroom : s.ahead.length ≤ s.size)
    (hi : s.depth = depth + 1) (hn : depth + (e.height + 1) ≤ maxNesting)
    (hc : Affords depth (calls + 1) signPrecedence) :
    Yields (expression scope calls lowestPrecedence) s (e.moves scope ++ [.look 0]) s.depth
      (e.value scope) :=
  yields_enclosed ih ⟨⟨rest, h⟩, hroom, by omega⟩ (hc.inside hi (by omega)) (isOperator_closing closing)

/-- An operand is an expression of the highest precedence, whatever follows. -/
theorem yields_operand {u : Phrase .operand} (ih : Evaluates scope u)
    (hs : Poised s u.tokens u.height next) (hc : Affords s.depth calls signPrecedence) :
    Yields (expression scope calls signPrecedence) s (u.moves scope ++ [.look 0]) s.depth
      (u.value scope) := by
  obtain ⟨rest, hr⟩ := hs.ahead
  obtain ⟨calls, rfl⟩ := hc.exists_eq (by decide)
  exact (climbs_of_operand ih hs hc (by decide)).yields (by rw [taken_moves, hr])
    fun op _ => Nat.lt_succ_of_le op.precedence_le

theorem evaluates_call (f : Keyword) (opening : Opening) {arg : Phrase .sum} (closing : Closing)
    (ih : Evaluates scope arg) : Evaluates scope (.call f opening arg closing) := by
  intro s calls next hs hc
  obtain ⟨rest, hr⟩ := hs.ahead
  have hd := hs.nesting
  simp only [tokens, height] at hr hd
  refine (yields_peek_zero hr).move_bind fun s₁ p₁ d₁ => ?_
  simp only [f.isFunc]
  have e₁ : s₁.ahead = f.token :: opening.1 :: (arg.tokens ++ closing.1 :: next :: rest) :=
    p₁.ahead_eq (by simpa using hr)
  have h := yields_call scope f opening closing (t := arg.moves scope ++ [.look 0])
    (by simpa using e₁) (by omega) fun s₂ p₂ d₂ =>
      yields_inside ih (p₂.ahead_eq e₁) (p₂.room (p₁.room hs.room)) d₂ (by omega) (d₁ ▸ hc)
  rw [d₁, List.append_assoc] at h
  exact h

theorem evaluates_parenthesis (opening : Opening) {inner : Phrase .sum} (closing : Closing)
    (ih : Evaluates scope inner) : Evaluates scope (.parenthesis opening inner closing) := by
  intro s calls next hs hc
  obtain ⟨rest, hr⟩ := hs.ahead
  have hd := hs.nesting
  simp only [tokens, height] at hr hd
  refine (yields_peek_zero hr).move_bind fun s₁ p₁ d₁ => ?_
  simp only [opening.2]
  have e₁ : s₁.ahead = opening.1 :: (inner.tokens ++ closing.1 :: next :: rest) :=
    p₁.ahead_eq (by simpa using hr)
  have h := yields_parenthesis opening closing (t := inner.moves scope ++ [.look 0])
    (by simpa using e₁) (by omega) fun s₂ p₂ d₂ =>
      yields_inside ih (p₂.ahead_eq e₁) (p₂.room (p₁.room hs.room)) d₂ (by omega) (d₁ ▸ hc)
  rw [d₁, List.append_assoc] at h
  exact h

theorem evaluates_sign (o : Sign) {u : Phrase .operand} (ih : Evaluates scope u) :
    Evaluates scope (.sign o u) := by
  intro s calls next hs hc
  obtain ⟨rest, hr⟩ := hs.ahead
  have hd := hs.nesting
  simp only [tokens, height] at hr hd
  have hin : Affords (s.depth + 1) calls signPrecedence := hc.enter (by omega) (by decide)
  have h := yields_sign scope o hr (by omega) fun s₁ p₁ d₁ =>
    yields_operand ih ⟨⟨rest, p₁.ahead_eq hr⟩, p₁.room hs.room, by omega⟩ (d₁ ▸ hin)
  rw [List.append_assoc] at h
  exact h

theorem evaluates_primary {p : Phrase .primary} (ih : Evaluates scope p) :
    Evaluates scope (.primary p) := by
  intro s calls next hs hc
  obtain ⟨rest, hr⟩ := hs.ahead
  obtain ⟨tok, toks, ht, hk⟩ := p.exists_tokens_eq_cons
  refine yields_operand_of_primary (by rw [hr, tokens, ht]; rfl) hk fun s₁ p₁ d₁ => ?_
  exact ih s₁ calls next (hs.advance p₁ rfl (Nat.le_of_eq (by rw [d₁]; rfl))) (d₁ ▸ hc)

theorem evaluates_product {lhs : Phrase .product} {o : Operator} (ho : o.IsMultiplicative)
    {rhs : Phrase .operand} (ihl : Evaluates scope lhs) (ihr : Evaluates scope rhs) :
    Evaluates scope (.product lhs o ho rhs) := by
  intro s calls next least hs hc hl
  obtain ⟨rest, hr⟩ := hs.ahead
  have hd := hs.nesting
  simp only [tokens, height, List.append_assoc, List.cons_append] at hr hd
  have hlo : least ≤ o.op.precedence := Operator.isMultiplicative_iff.mp ho ▸ hl
  have hin := hc.right hlo
  have hlhs := ihl s calls o.token least ⟨⟨_, hr⟩, hs.room, by omega⟩ hc hl
  have h := hlhs.step (by rw [taken_moves, hr]) hlo fun s₁ p₁ d₁ => by
    rw [← d₁, ho.rightPrecedence] at hin
    rw [ho.rightPrecedence]
    exact yields_operand ihr
      ⟨⟨rest, p₁.ahead_eq (by simpa using hr)⟩, p₁.room hs.room, by omega⟩ hin
  rw [List.append_assoc] at h
  exact h

theorem evaluates_sum {lhs : Phrase .sum} {o : Operator} (ho : o.IsAdditive)
    {rhs : Phrase .product} (ihl : Evaluates scope lhs) (ihr : Evaluates scope rhs) :
    Evaluates scope (.sum lhs o ho rhs) := by
  intro s calls next least hs hc hl hn
  obtain ⟨rest, hr⟩ := hs.ahead
  have hd := hs.nesting
  simp only [tokens, height, List.append_assoc, List.cons_append] at hr hd
  have hlo : least ≤ o.op.precedence := Operator.isAdditive_iff.mp ho ▸ hl
  have hin := hc.right hlo
  have hlhs := ihl s calls o.token least ⟨⟨_, hr⟩, hs.room, by omega⟩ hc hl ho.follows
  have h := hlhs.step (by rw [taken_moves, hr]) hlo fun s₁ p₁ d₁ => by
    rw [← d₁, ho.rightPrecedence] at hin
    rw [ho.rightPrecedence]
    obtain ⟨calls, rfl⟩ := hin.exists_eq (by decide)
    have e₁ : s₁.ahead = rhs.tokens ++ next :: rest := p₁.ahead_eq (by simpa using hr)
    have hrhs := ihr s₁ calls next 2 ⟨⟨rest, e₁⟩, p₁.room hs.room, by omega⟩ hin (Nat.le_refl 2)
    exact hrhs.yields (by rw [taken_moves, e₁]) fun op hop => Nat.lt_succ_of_le (hn op hop)
  rw [List.append_assoc] at h
  exact h

/-- Evaluating the tokens of any expression comes to its value, with its trace. -/
theorem evaluates (scope : Scope) (e : Phrase st) : Evaluates scope e := by
  induction e with
  | literal l => exact evaluates_literal l
  | name m => exact evaluates_name m
  | call f opening arg closing ih => exact evaluates_call f opening closing ih
  | parenthesis opening inner closing ih => exact evaluates_parenthesis opening closing ih
  | primary p ih => exact evaluates_primary ih
  | sign o u ih => exact evaluates_sign o ih
  | operand u ih =>
    intro s calls next least hs hc hl
    exact climbs_of_operand ih hs hc (Nat.le_succ_of_le hl)
  | product lhs o ho rhs ihl ihr => exact evaluates_product ho ihl ihr
  | term t ih =>
    intro s calls next least hs hc hl _
    exact ih s calls next least hs hc (Nat.le_succ_of_le hl)
  | sum lhs o ho rhs ihl ihr => exact evaluates_sum ho ihl ihr

theorem affords_callLimit : Affords 0 callLimit lowestPrecedence := by
  unfold Affords callLimit lowestPrecedence
  omega

theorem yields_wholeExpression (scope : Scope) (e : Phrase .sum)
    (hs : Poised s e.tokens e.height next) (hd : s.depth = 0)
    (hn : next.kind.isOperator = false) :
    Yields (wholeExpression scope) s (e.moves scope ++ [.look 0]) 0 (e.value scope) := by
  have hc : Affords s.depth callLimit lowestPrecedence := by rw [hd]; exact affords_callLimit
  have h := yields_enclosed (evaluates scope e) hs hc hn
  rw [hd] at h
  exact h

end Eval

end LineCalc
