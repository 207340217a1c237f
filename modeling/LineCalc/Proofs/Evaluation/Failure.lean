import LineCalc.Proofs.Evaluation.Expression
import LineCalc.Proofs.Grammar.Gap

/-!
# Evaluations that get stuck

Where the tokens ahead lead into a gap, and something else comes there than what is wanted,
precedence climbing fails at that token. The induction is on the gap.
-/

namespace LineCalc

open Grammar Move

/-- The tokens ahead lead into the gap `g`, where `t` comes instead of what is wanted. -/
structure Stuck {st : Stratum} (s : Script) (g : Gap st) (w : Want) (t : Token) (d : Diagnostic) :
    Prop where
  ahead : ∃ rest, s.ahead = g.tokens ++ (w.tokens ++ t :: rest)
  room : s.ahead.length ≤ s.size
  nesting : s.depth + g.height ≤ maxNesting
  inside : s.depth + g.levels + w.height ≤ maxNesting
  blames : w.Blames (s.depth + g.levels) t d

/-- Behind some of the tokens in front of a gap, the others lead into what is left of it. -/
theorem Stuck.advance {st st' : Stratum} {s s' : Script} {m : List Move} {g : Gap st} {g' : Gap st'}
    {w : Want} {t : Token} {d : Diagnostic} (h : Stuck s g w t d) (p : Progress s m s')
    (ht : g.tokens = taken m ++ g'.tokens) (hh : s'.depth + g'.height ≤ s.depth + g.height)
    (hl : s'.depth + g'.levels = s.depth + g.levels) : Stuck s' g' w t d where
  ahead := by
    obtain ⟨rest, hr⟩ := h.ahead
    exact ⟨rest, p.ahead_eq (by rw [hr, ht, List.append_assoc])⟩
  room := p.room h.room
  nesting := Nat.le_trans hh h.nesting
  inside := by
    rw [hl]
    exact h.inside
  blames := by
    rw [hl]
    exact h.blames

theorem Stuck.enter {st st' : Stratum} {s s' : Script} {m : List Move} {g : Gap st} {g' : Gap st'}
    {w : Want} {t : Token} {d : Diagnostic} (h : Stuck s g w t d) (p : Progress s m s')
    (ht : g.tokens = taken m ++ g'.tokens) (hd : s'.depth = s.depth + 1)
    (hh : g.height = g'.height + 1) (hl : g.levels = g'.levels + 1) : Stuck s' g' w t d :=
  h.advance p ht (by omega) (by omega)

namespace Eval

variable {scope : Scope} {inner : Nat → Eval Number} {s s' : Script} {m : List Move}
variable {d : Diagnostic} {t : Token} {rest : List Token} {calls least : Nat} {st : Stratum}

/-! ### Into a bracket -/

/-- What is left of a call behind its keyword. -/
def callRest (scope : Scope) (inner : Nat → Eval Number) (f : Keyword) : Eval Number := do
  let _ ← expect .leftParen
  let arg ← inner lowestPrecedence
  let close ← expect .rightParen
  ascend
  Feed.emit (.call f.func arg)
  settle scope (f.token.mergeSpan close.span).span (f.func.apply arg)

/-- A call up to its keyword. -/
theorem fails_call (f : Keyword) (h : s.ahead = f.token :: rest) (hd : s.depth < maxNesting)
    (hr : ∀ s', Progress s [.look 0, .look 0, .enter, .take f.token] s' →
      s'.depth = s.depth + 1 → Fails (callRest scope inner f) s' m d) :
    Fails (operand scope inner) s (.look 0 :: .look 0 :: .enter :: .take f.token :: m) d := by
  have hf : f.token.kind ≠ .endOfInput := by simp [f.isFunc]
  refine (yields_peek_zero h).move_bind_fails fun s₁ p₁ d₁ => ?_
  simp only [f.isFunc, UnOp.ofKind?]
  refine (yields_peek_zero (p₁.ahead_eq h)).move_bind_fails fun s₂ p₂ d₂ => ?_
  simp only [f.isFunc]
  refine (yields_descend (by omega)).move_bind_fails fun s₃ p₃ d₃ => ?_
  have p₁₃ := p₁.trans (p₂.trans p₃)
  refine (yields_advance (p₁₃.ahead_eq h) hf).move_bind_fails fun s₄ p₄ d₄ => ?_
  simp only [f.payload]
  exact hr s₄ (p₁₃.trans p₄) (by omega)

/-- A call up to where its argument starts. -/
theorem fails_call_opening (f : Keyword) (opening : Opening)
    (h : s.ahead = f.token :: opening.1 :: rest) (hd : s.depth < maxNesting)
    (hr : ∀ s', Progress s [.look 0, .look 0, .enter, .take f.token, .look 0, .take opening.1] s' →
      s'.depth = s.depth + 1 →
      Fails (inner lowestPrecedence >>= fun arg => do
        let close ← expect .rightParen
        ascend
        Feed.emit (.call f.func arg)
        settle scope (f.token.mergeSpan close.span).span (f.func.apply arg)) s' m d) :
    Fails (operand scope inner) s
      (.look 0 :: .look 0 :: .enter :: .take f.token :: .look 0 :: .take opening.1 :: m) d := by
  have ho : opening.1.kind ≠ .endOfInput := by simp [opening.2]
  refine fails_call f h hd fun s₁ p₁ d₁ => ?_
  refine (yields_expect (p₁.ahead_eq h) opening.2 ho).bind_fails fun s₂ p₂ d₂ => ?_
  exact hr s₂ (p₁.trans p₂) (by omega)

theorem fails_parenthesis (opening : Opening) (h : s.ahead = opening.1 :: rest)
    (hd : s.depth < maxNesting)
    (hr : ∀ s', Progress s [.look 0, .look 0, .enter, .take opening.1] s' →
      s'.depth = s.depth + 1 →
      Fails (inner lowestPrecedence >>= fun value => do
        let _ ← expect .rightParen
        ascend
        return value) s' m d) :
    Fails (operand scope inner) s (.look 0 :: .look 0 :: .enter :: .take opening.1 :: m) d := by
  have ho : opening.1.kind ≠ .endOfInput := by simp [opening.2]
  refine (yields_peek_zero h).move_bind_fails fun s₁ p₁ d₁ => ?_
  simp only [opening.2, UnOp.ofKind?]
  refine (yields_peek_zero (p₁.ahead_eq h)).move_bind_fails fun s₂ p₂ d₂ => ?_
  simp only [opening.2]
  refine (yields_descend (by omega)).move_bind_fails fun s₃ p₃ d₃ => ?_
  have p₁₃ := p₁.trans (p₂.trans p₃)
  refine (yields_advance (p₁₃.ahead_eq h) ho).move_bind_fails fun s₄ p₄ d₄ => ?_
  exact hr s₄ (p₁₃.trans p₄) (by omega)

theorem fails_sign (o : Sign) (h : s.ahead = o.token :: rest) (hd : s.depth < maxNesting)
    (hr : ∀ s', Progress s [.look 0, .enter, .take o.token] s' → s'.depth = s.depth + 1 →
      Fails (inner signPrecedence) s' m d) :
    Fails (operand scope inner) s (.look 0 :: .enter :: .take o.token :: m) d := by
  refine (yields_peek_zero h).move_bind_fails fun s₁ p₁ d₁ => ?_
  simp only [o.spells]
  refine (yields_descend (by omega)).move_bind_fails fun s₂ p₂ d₂ => ?_
  have p₁₂ := p₁.trans p₂
  refine (yields_advance (p₁₂.ahead_eq h) o.kind_ne_endOfInput).move_bind_fails
    fun s₃ p₃ d₃ => ?_
  exact (hr s₃ (p₁₂.trans p₃) (by omega)).bind

/-! ### In the gap -/

theorem fails_unexpected (h : s.ahead = t :: rest) (ht : t.kind.startsOperand = false) :
    Fails (operand scope inner) s [.look 0, .look 0] (.unexpected t) := by
  refine (yields_peek_zero h).move_bind_fails fun s₁ p₁ d₁ => ?_
  have hp : Fails (primary scope inner) s₁ [.look 0] (.unexpected t) := by
    refine (yields_peek_zero (p₁.ahead_eq h)).move_bind_fails fun s₂ p₂ d₂ => ?_
    cases hk : t.kind <;>
      simp [hk, TokenKind.startsOperand, TokenKind.opensLevel, TokenKind.isLiteral] at ht <;>
      exact fails_fail _ _
  cases hk : t.kind <;>
    simp [hk, TokenKind.startsOperand, TokenKind.opensLevel, TokenKind.isLiteral] at ht <;>
    simpa only [UnOp.ofKind?] using hp

theorem fails_nesting (h : s.ahead = t :: rest) (ht : t.kind.opensLevel = true)
    (hd : s.depth = maxNesting) :
    Fails (operand scope inner) s (Want.moves scope t .operand) (.nesting t) := by
  -- a keyword or parenthesis is looked at twice, first for a sign, and a sign only once
  have fails_primary : t.kind = .func ∨ t.kind = .leftParen → ∀ s₁, Progress s [.look 0] s₁ →
      s₁.depth = s.depth → Fails (primary scope inner) s₁ [.look 0, .look 0] (.nesting t) := by
    intro hk s₁ p₁ d₁
    refine (yields_peek_zero (p₁.ahead_eq h)).move_bind_fails fun s₂ p₂ d₂ => ?_
    have hf := fails_descend ((p₁.trans p₂).ahead_eq h) (by omega)
    obtain hk | hk := hk
    · rw [hk]
      exact hf.bind
    · rw [hk]
      exact hf.bind
  cases hk : t.kind with
  | plus | minus =>
    simp only [Want.moves, hk, reduceCtorEq, or_self, if_false]
    refine (yields_peek_zero h).move_bind_fails fun s₁ p₁ d₁ => ?_
    simp only [hk, UnOp.ofKind?]
    exact (fails_descend (p₁.ahead_eq h) (by omega)).bind
  | func | leftParen =>
    simp only [Want.moves, hk, reduceCtorEq, or_false, false_or, if_true]
    refine (yields_peek_zero h).move_bind_fails fun s₁ p₁ d₁ => ?_
    simp only [hk, UnOp.ofKind?]
    exact fails_primary (by simp [hk]) s₁ p₁ d₁
  | _ => simp [hk, TokenKind.opensLevel] at ht

/-- An inner expression, and something else behind it than its closing parenthesis. -/
theorem fails_unclosed {β : Type} {arg : Phrase .sum} {k : Number → Token → Eval β}
    (hs : Poised s arg.tokens arg.height t) (hc : Affords s.depth calls lowestPrecedence)
    (ht : t.kind ≠ .rightParen) (hn : t.kind.isOperator = false) :
    Fails (expression scope calls lowestPrecedence >>= fun v => expect .rightParen >>= k v) s
      (arg.moves scope ++ [.look 0, .look 0]) (.unexpected t) := by
  obtain ⟨rest, hr⟩ := hs.ahead
  have hy := yields_enclosed (evaluates scope arg) hs hc hn
  rw [show ([.look 0, .look 0] : List Move) = [.look 0] ++ [.look 0] from rfl,
    ← List.append_assoc]
  exact hy.bind_fails fun s₁ p₁ _ => (fails_expect (p₁.ahead_eq (by simpa using hr)) ht).bind

theorem fails_want (scope : Scope) (w : Want) (h : s.ahead = w.tokens ++ t :: rest)
    (hroom : s.ahead.length ≤ s.size) (hd : s.depth + w.height ≤ maxNesting)
    (hb : w.Blames s.depth t d) (hc : Affords s.depth (calls + 1) signPrecedence) :
    Fails (operand scope (expression scope calls)) s (w.moves scope t) d := by
  cases w with
  | operand =>
    obtain ⟨ht, hl, rfl⟩ | ⟨ht, rfl⟩ := hb
    · exact fails_nesting h ht hl
    · have hk : ¬(t.kind = .func ∨ t.kind = .leftParen) := by
        rintro (hk | hk) <;> simp [hk, TokenKind.startsOperand, TokenKind.opensLevel] at ht
      rw [Want.moves, if_neg hk]
      exact fails_unexpected h ht
  | bracket f =>
    obtain ⟨ht, rfl⟩ := hb
    refine fails_call f h (Nat.lt_of_succ_le hd) fun s₁ p₁ d₁ => ?_
    exact (fails_expect (p₁.ahead_eq h) ht).bind
  | closeCall f opening arg =>
    obtain ⟨ht, hn, rfl⟩ := hb
    simp only [Want.height] at hd
    have hlt : s.depth < maxNesting := by omega
    refine fails_call_opening f opening h hlt fun s₁ p₁ d₁ => ?_
    -- the argument is complete, and only what should close it is not there
    have hs : Poised s₁ arg.tokens arg.height t :=
      ⟨⟨rest, p₁.ahead_eq h⟩, p₁.room hroom, by omega⟩
    exact fails_unclosed hs (hc.inside d₁ hlt) ht hn
  | close opening arg =>
    obtain ⟨ht, hn, rfl⟩ := hb
    simp only [Want.height] at hd
    have hlt : s.depth < maxNesting := by omega
    refine fails_parenthesis opening h hlt fun s₁ p₁ d₁ => ?_
    have hs : Poised s₁ arg.tokens arg.height t :=
      ⟨⟨rest, p₁.ahead_eq h⟩, p₁.room hroom, by omega⟩
    exact fails_unclosed hs (hc.inside d₁ hlt) ht hn

/-! ### The induction -/

/-- A chain gets stuck where the right operand of an operator does. -/
theorem Climbs.fails {lm : List Move} {lv : Number} {o : Operator}
    (h : Climbs scope calls least s lm lv) (hs : s.ahead = taken lm ++ o.token :: rest)
    (hl : least ≤ o.op.precedence)
    (hr : ∀ s', Progress s (lm ++ [.look 0, .take o.token]) s' → s'.depth = s.depth →
      Fails (expression scope calls o.op.rightPrecedence) s' m d) :
    Fails (expression scope (calls + 1) least) s (lm ++ .look 0 :: .take o.token :: m) d := by
  obtain ⟨s₁, turns, h₁, p₁, d₁, e₁, -⟩ := h.exists_turn hs
  obtain ⟨s₂, h₂, p₂, d₂⟩ := yields_peek_zero e₁
  obtain ⟨s₃, h₃, p₃, d₃⟩ := yields_advance (p₂.ahead_eq e₁) o.kind_ne_endOfInput
  obtain ⟨s₄, h₄, p₄⟩ := hr s₃ (p₁.trans (p₂.trans p₃)) (by omega)
  refine ⟨s₄, ?_, p₁.trans (p₂.trans (p₃.trans p₄))⟩
  rw [h₁, climb, bind_ok h₂]
  simp only [o.spells]
  rw [if_neg (by omega), bind_ok h₃, bind_error h₄]

/-- A chain whose last right operand leads into the gap `g'` is the way into the gap `g`. -/
theorem Climbs.fails_gap {st' : Stratum} {lm : List Move} {lv : Number} {o : Operator} {g : Gap st}
    {g' : Gap st'} {w : Want} (h : Climbs scope calls least s lm lv) (hs : Stuck s g w t d)
    (hc : Affords s.depth (calls + 1) least) (hl : least ≤ o.op.precedence)
    (ht : g.tokens = taken lm ++ o.token :: g'.tokens) (hm : g.moves scope =
      lm ++ .look 0 :: .take o.token :: g'.moves scope)
    (hh : g'.height ≤ g.height) (hg : g'.levels = g.levels)
    (ih : ∀ s' calls, Stuck s' g' w t d → Affords s'.depth (calls + 1) o.op.rightPrecedence →
      Fails (expression scope (calls + 1) o.op.rightPrecedence) s'
        (g'.moves scope ++ w.moves scope t) d) :
    Fails (expression scope (calls + 1) least) s (g.moves scope ++ w.moves scope t) d := by
  obtain ⟨rest, hr⟩ := hs.ahead
  rw [hm, List.append_assoc]
  refine h.fails (by rw [hr, ht, List.append_assoc]; rfl) hl fun s₁ p₁ d₁ => ?_
  have hs₁ : Stuck s₁ g' w t d := hs.advance p₁ (by simp [ht]) (by omega) (by omega)
  have hin := hc.right hl
  rw [← d₁] at hin
  obtain ⟨calls, rfl⟩ := hin.exists_eq (Nat.succ_le_succ o.op.precedence_le)
  exact ih s₁ calls hs₁ hin

/-- Reading an expression whose tokens lead into a gap gets stuck there. -/
theorem fails_expression (scope : Scope) (g : Gap st) {w : Want} (hs : Stuck s g w t d)
    (hc : Affords s.depth (calls + 1) least) (hl : least ≤ st.precedence) :
    Fails (expression scope (calls + 1) least) s (g.moves scope ++ w.moves scope t) d := by
  -- on the gap: in front of the hole each constructor is passed as in evaluation, up to the inner
  -- gap
  induction g generalizing s calls least with
  | here =>
    obtain ⟨rest, hr⟩ := hs.ahead
    have hi := hs.inside
    exact (fails_want scope w hr hs.room hi hs.blames (hc.operand hl)).bind
  | call f opening g ih =>
    obtain ⟨rest, hr⟩ := hs.ahead
    have hn := hs.nesting
    simp only [Gap.tokens, Gap.height, List.cons_append] at hr hn
    refine Fails.bind (fails_call_opening f opening hr (by omega) fun s₁ p₁ d₁ => ?_)
    obtain ⟨calls, rfl, hin⟩ :=
      (hc.operand hl).exists_enter lowestPrecedence d₁ (by omega) (by decide) (by decide)
    exact (ih (hs.enter p₁ rfl d₁ rfl rfl) hin (by decide)).bind
  | parenthesis opening g ih =>
    obtain ⟨rest, hr⟩ := hs.ahead
    have hn := hs.nesting
    simp only [Gap.tokens, Gap.height, List.cons_append] at hr hn
    refine Fails.bind (fails_parenthesis opening hr (by omega) fun s₁ p₁ d₁ => ?_)
    obtain ⟨calls, rfl, hin⟩ :=
      (hc.operand hl).exists_enter lowestPrecedence d₁ (by omega) (by decide) (by decide)
    exact (ih (hs.enter p₁ rfl d₁ rfl rfl) hin (by decide)).bind
  | sign o g ih =>
    obtain ⟨rest, hr⟩ := hs.ahead
    have hn := hs.nesting
    simp only [Gap.tokens, Gap.height, List.cons_append] at hr hn
    refine Fails.bind (fails_sign o hr (by omega) fun s₁ p₁ d₁ => ?_)
    obtain ⟨calls, rfl, hin⟩ :=
      (hc.operand hl).exists_enter signPrecedence d₁ (by omega) (by decide) (by decide)
    exact ih (hs.enter p₁ rfl d₁ rfl rfl) hin (by decide)
  | operand g ih | term g ih =>
    exact ih (hs.advance (Progress.refl s) rfl (Nat.le_refl _) rfl) hc (Nat.le_succ_of_le hl)
  | product lhs o ho g ih =>
    obtain ⟨rest, hr⟩ := hs.ahead
    have hn := hs.nesting
    simp only [Gap.tokens, Gap.height, List.append_assoc, List.cons_append] at hr hn
    have hlo : least ≤ o.op.precedence := Operator.isMultiplicative_iff.mp ho ▸ hl
    have hlhs := evaluates scope lhs s calls o.token least ⟨⟨_, hr⟩, hs.room, by omega⟩ hc hl
    refine hlhs.fails_gap hs hc hlo (by rw [Phrase.taken_moves, Gap.tokens]) rfl
      (Nat.le_max_right ..) rfl fun s₁ calls hs₁ hin => ?_
    rw [ho.rightPrecedence] at hin ⊢
    exact ih hs₁ hin (Nat.le_refl 3)
  | sum lhs o ho g ih =>
    obtain ⟨rest, hr⟩ := hs.ahead
    have hn := hs.nesting
    simp only [Gap.tokens, Gap.height, List.append_assoc, List.cons_append] at hr hn
    have hlo : least ≤ o.op.precedence := Operator.isAdditive_iff.mp ho ▸ hl
    have hlhs := evaluates scope lhs s calls o.token least ⟨⟨_, hr⟩, hs.room, by omega⟩ hc hl
      ho.follows
    refine hlhs.fails_gap hs hc hlo (by rw [Phrase.taken_moves, Gap.tokens]) rfl
      (Nat.le_max_right ..) rfl fun s₁ calls hs₁ hin => ?_
    rw [ho.rightPrecedence] at hin ⊢
    exact ih hs₁ hin (Nat.le_refl 2)

theorem fails_wholeExpression (scope : Scope) (g : Gap .sum) {w : Want} (hs : Stuck s g w t d)
    (hd : s.depth = 0) :
    Fails (wholeExpression scope) s (g.moves scope ++ w.moves scope t) d :=
  fails_expression scope g hs (by rw [hd]; exact affords_callLimit) (Nat.le_refl 1)

end Eval

end LineCalc
