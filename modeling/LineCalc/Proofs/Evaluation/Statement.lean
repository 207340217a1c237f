import LineCalc.Proofs.Evaluation.Failure
import LineCalc.Proofs.Evaluation.Working
import LineCalc.Proofs.Grammar.Line

/-!
# Evaluating a line

A statement reads one row of tokens. If the row is a line, the statement ends with the result of the
line, by the moves of the line; if it is a slip, the statement fails at the token that does not fit.
-/

namespace LineCalc

open Grammar Move

namespace Eval

variable {scope : Scope} {s s' : Script} {a b t next : Token} {rest : List Token} {d : Diagnostic}

/-! ### The parts of a line -/

/-- The two tokens at the start show what the line asks for. -/
theorem deed_eq (scope : Scope) (lead : Lead) {toks : List Token} (h : s.ahead = lead.tokens ++ toks)
    (hs : lead.ShownBy s.ahead) :
    ∃ s₁, deed scope s = (wholeExpression scope >>= fun v => pure (lead.deed v)) s₁ ∧
      Progress s (.look 0 :: .look 1 :: lead.moves) s₁ ∧ s₁.depth = s.depth := by
  obtain ⟨a, b, rest, hab, ha, hlead⟩ := hs
  obtain ⟨s₁, h₁, p₁, d₁⟩ := yields_peek_zero hab
  have e₁ : s₁.ahead = a :: b :: rest := p₁.ahead_eq hab
  have hb : s₁.ahead[1]? = some b := by rw [e₁]; rfl
  obtain ⟨s₂, h₂, p₂, d₂⟩ := yields_peek hb
  have p₁₂ := p₁.trans p₂
  -- behind the two looks the branch is decided by the kinds of the tokens
  cases lead with
  | print =>
    obtain ⟨hc, hi⟩ := hlead
    refine ⟨s₂, ?_, p₁₂, d₂.trans d₁⟩
    rw [deed, bind_ok h₁, bind_ok h₂]
    cases hk : a.kind with
    | comment => exact absurd hk hc
    | ident =>
      cases hk' : b.kind with
      | equals => exact absurd ⟨hk, hk'⟩ hi
      | _ => rfl
    | _ => rfl
  | store m equals =>
    have hm : m.token.kind ≠ .endOfInput := by simp [m.isIdent]
    have he : equals.1.kind ≠ .endOfInput := by simp [equals.2]
    have e₂ : s₂.ahead = m.token :: equals.1 :: toks := p₁₂.ahead_eq h
    obtain ⟨rfl, rfl⟩ : a = m.token ∧ b = equals.1 := by
      have := p₂.ahead_eq e₁
      simp only [e₂] at this
      simp_all
    obtain ⟨s₃, h₃, p₃, d₃⟩ := yields_advance e₂ hm
    obtain ⟨s₄, h₄, p₄, d₄⟩ := yields_advance (p₃.ahead_eq e₂) he
    refine ⟨s₄, ?_, p₁₂.trans (p₃.trans p₄), by omega⟩
    rw [deed, bind_ok h₁, bind_ok h₂]
    simp only [m.isIdent, equals.2]
    rw [bind_ok h₃, bind_ok h₄]
    simp only [m.payload]
    rfl

theorem yields_deed_comment (scope : Scope) (ha : a.kind = .comment) (h : s.ahead = a :: b :: rest) :
    Yields (deed scope) s [.look 0, .look 1] s.depth .nothing := by
  refine (yields_peek_zero h).move_bind fun s₁ p₁ d₁ => ?_
  have e₁ : s₁.ahead = a :: b :: rest := p₁.ahead_eq h
  have hb : s₁.ahead[1]? = some b := by rw [e₁]; rfl
  refine (yields_peek hb).move_bind fun s₂ p₂ d₂ => ?_
  simp only [ha]
  rw [← d₁, ← d₂]
  exact yields_pure _ s₂

theorem yields_trailingComment (r? : Option Remark)
    (h : s.ahead = Remark.tokens r? ++ next :: rest) (hn : r? = none → next.kind ≠ .comment) :
    Yields trailingComment s (Remark.moves r?) s.depth () := by
  cases r? with
  | none =>
    refine (yields_peek_zero h).move_bind fun s₁ p₁ d₁ => ?_
    rw [if_neg (hn rfl), ← d₁]
    exact yields_pure () s₁
  | some r =>
    refine (yields_peek_zero h).move_bind fun s₁ p₁ d₁ => ?_
    rw [if_pos r.isComment]
    refine (yields_advance (p₁.ahead_eq h) (by simp [r.isComment])).move_bind fun s₂ p₂ d₂ => ?_
    simp only [r.payload]
    rw [← d₁, ← d₂]
    exact yields_emit _ s₂

theorem yields_endLine (stop : LineEnd) (h : s.ahead = stop.1 :: rest) :
    Yields endLine s stop.moves s.depth () := by
  obtain hk | hk := stop.kind_eq
  · rw [LineEnd.moves_of_newLine hk]
    refine (yields_peek_zero h).move_bind fun s₁ p₁ d₁ => ?_
    simp only [hk]
    obtain ⟨s₂, h₂, p₂, d₂⟩ := yields_advance (p₁.ahead_eq h) (by simp [hk])
    refine ⟨s₂, ?_, p₂, d₂.trans d₁⟩
    change EStateM.map (fun _ => ()) (liftM Feed.advance) s₁ = _
    simp only [EStateM.map, h₂]
  · rw [LineEnd.moves_of_endOfInput hk]
    refine (yields_peek_zero h).move_bind fun s₁ p₁ d₁ => ?_
    simp only [hk]
    rw [← d₁]
    exact yields_pure () s₁

theorem fails_endLine (h : s.ahead = t :: rest) (ht : t.kind.endsLine = false) :
    Fails endLine s [.look 0] (.unexpected t) := by
  refine (yields_peek_zero h).move_bind_fails fun s₁ p₁ d₁ => ?_
  cases hk : t.kind with
  | newLine | endOfInput => simp [hk, TokenKind.endsLine] at ht
  | _ => exact fails_fail _ _

/-- What the line asks for is done, unless there is a fault. -/
theorem yields_perform (c : Content) (hf : s.fault = (c.faults scope).head?)
    (hl : ∀ d ∈ c.faults scope, d.isLexical = false) :
    Yields (perform scope.bindings (c.deed scope)) s (c.verdict scope) s.depth
      (c.bindings scope) := by
  unfold Content.verdict Content.bindings
  cases hd : (c.faults scope).head? with
  | some d =>
    have hl := hl d (List.mem_of_mem_head? hd)
    refine ⟨_, ?_, s.progress_forgive.trans (Script.progress_report hl _), rfl⟩
    unfold perform; rw [get_bind, hf, hd]
    rfl
  | none =>
    cases hv : c.deed scope with
    | nothing =>
      refine ⟨s, ?_, Progress.refl s, rfl⟩
      unfold perform; rw [get_bind, hf, hd]
      rfl
    | print value =>
      refine ⟨_, ?_, s.progress_print value, rfl⟩
      unfold perform; rw [get_bind, hf, hd]
      rfl
    | store name value =>
      refine ⟨_, ?_, s.progress_note _, rfl⟩
      unfold perform; rw [get_bind, hf, hd]
      rfl

/-! ### The whole line -/

/-- What is left of a statement when it is known not to be blank. -/
def lineOf (scope : Scope) : Eval (Option Bindings) := do
  let deed ← deed scope
  trailingComment
  endLine
  return some (← perform scope.bindings deed)

/-- A row that is not blank counts as a statement. -/
theorem statement_eq (scope : Scope) (h : s.ahead = a :: rest) (ha : a.kind.endsLine = false) :
    ∃ s₁, statement scope s = lineOf scope s₁ ∧ Progress s [.clear, .look 0, .count] s₁ ∧
      s₁.depth = 0 := by
  obtain ⟨s₁, h₁, p₁, d₁⟩ := yields_peek_zero (s := s.cleared) h
  refine ⟨s₁.counted, ?_, s.progress_clear.trans (p₁.trans s₁.progress_count), d₁⟩
  rw [statement, modify_bind, bind_ok h₁]
  cases hk : a.kind with
  | newLine | endOfInput => simp [hk, TokenKind.endsLine] at ha
  | _ => rfl

/-- The content of a line, before a token that does not go on with it. -/
theorem lineOf_eq (scope : Scope) (c : Content) (h : s.ahead = c.tokens ++ next :: rest)
    (hs : c.ShownBy s.ahead) (he : c.EndsAt next) (hroom : s.ahead.length ≤ s.size)
    (hh : c.height ≤ maxNesting) (hd : s.depth = 0) :
    ∃ s₁, lineOf scope s =
        (endLine >>= fun _ => do return some (← perform scope.bindings (c.deed scope))) s₁ ∧
      Progress s (c.moves scope) s₁ ∧ s₁.depth = 0 := by
  cases c with
  | remark r =>
    obtain ⟨s₁, h₁, p₁, d₁⟩ := yields_deed_comment scope r.isComment h
    have e₁ : s₁.ahead = Remark.tokens (some r) ++ next :: rest := p₁.ahead_eq h
    obtain ⟨s₂, h₂, p₂, d₂⟩ := yields_trailingComment (some r) e₁ (by simp)
    refine ⟨s₂, ?_, p₁.trans p₂, by omega⟩
    rw [lineOf, bind_ok h₁, bind_ok h₂]
    rfl
  | expression lead e r? =>
    have h' : s.ahead = lead.tokens ++ (e.tokens ++ (Remark.tokens r? ++ next :: rest)) := by
      rw [h]
      simp [Content.tokens]
    obtain ⟨s₁, h₁, p₁, d₁⟩ := deed_eq scope lead h' hs
    have e₁ : s₁.ahead = e.tokens ++ (Remark.tokens r? ++ next :: rest) :=
      p₁.ahead_eq (by simpa using h')
    -- what stands behind the expression is the comment, or what ends the content
    obtain ⟨tok, toks, ht, hn⟩ : ∃ tok toks, Remark.tokens r? ++ next :: rest = tok :: toks ∧
        tok.kind.isOperator = false := by
      cases r? with
      | none => exact ⟨next, rest, rfl, he.2⟩
      | some r => exact ⟨r.token, _, rfl, by simp [r.isComment, TokenKind.isOperator]⟩
    obtain ⟨s₂, h₂, p₂, d₂⟩ := yields_wholeExpression scope e
      ⟨⟨toks, by rw [e₁, ht]⟩, p₁.room hroom, by rw [d₁, hd, Nat.zero_add]; exact hh⟩
      (d₁.trans hd) hn
    have e₂ : s₂.ahead = Remark.tokens r? ++ next :: rest := p₂.ahead_eq (by simpa using e₁)
    obtain ⟨s₃, h₃, p₃, d₃⟩ := yields_trailingComment r? e₂ (by rintro rfl; exact he.1)
    refine ⟨s₃, ?_, (p₁.trans p₂).trans p₃, by omega⟩
    have hv : deed scope s = .ok (lead.deed (e.value scope)) s₂ := by
      rw [h₁, bind_ok h₂]
      rfl
    rw [lineOf, bind_ok hv, bind_ok h₃]
    rfl

/-- So it is with a statement, whose row is not blank. -/
theorem statement_content (scope : Scope) (c : Content) (h : s.ahead = c.tokens ++ next :: rest)
    (hs : c.ShownBy s.ahead) (he : c.EndsAt next) (hroom : s.ahead.length ≤ s.size)
    (hh : c.height ≤ maxNesting) :
    ∃ s₁, statement scope s =
        (endLine >>= fun _ => do return some (← perform scope.bindings (c.deed scope))) s₁ ∧
      Progress s ([.clear, .look 0, .count] ++ c.moves scope) s₁ ∧ s₁.depth = 0 := by
  obtain ⟨a, toks, hc, ha⟩ := c.exists_tokens_eq_cons
  obtain ⟨s₁, h₁, p₁, d₁⟩ := statement_eq scope (by rw [h, hc]; rfl) ha
  have e₁ : s₁.ahead = s.ahead := p₁.ahead.symm
  obtain ⟨s₂, h₂, p₂, d₂⟩ := lineOf_eq scope c (e₁.trans h) (e₁ ▸ hs) he (p₁.room hroom) hh d₁
  exact ⟨s₂, h₁.trans h₂, p₁.trans p₂, d₂⟩

/-- A blank line gives nothing new, and the end of the input nothing at all. -/
theorem yields_statement_blank (scope : Scope) (stop : LineEnd) (h : s.ahead = stop.1 :: rest) :
    Yields (statement scope) s (Line.moves scope (.blank stop)) 0
      (Line.result scope (.blank stop)) := by
  obtain ⟨s₁, h₁, p₁, d₁⟩ := yields_peek_zero (s := s.cleared) h
  have p₀ := s.progress_clear.trans p₁
  rw [Line.moves, Line.result]
  obtain hk | hk := stop.kind_eq
  · obtain ⟨s₂, h₂, p₂, d₂⟩ := yields_advance (p₀.ahead_eq h) (by simp [hk])
    rw [LineEnd.moves_of_newLine hk, if_pos hk]
    refine ⟨s₂, ?_, p₀.trans p₂, d₂.trans d₁⟩
    rw [statement, modify_bind, bind_ok h₁]
    simp only [hk]
    rw [bind_ok h₂]
    rfl
  · rw [LineEnd.moves_of_endOfInput hk, if_neg (by simp [hk])]
    refine ⟨s₁, ?_, p₀, d₁⟩
    rw [statement, modify_bind, bind_ok h₁]
    simp only [hk]
    rfl

/-- A row that is a line gives the result of the line. -/
theorem yields_statement (scope : Scope) (l : Line) (h : s.ahead = l.tokens ++ rest)
    (hroom : s.ahead.length ≤ s.size) (hh : l.height ≤ maxNesting) :
    Yields (statement scope) s (l.moves scope) 0 (l.result scope) := by
  cases l with
  | blank stop => exact yields_statement_blank scope stop h
  | full c stop =>
    have hne : stop.1.kind ≠ .equals := by obtain hk | hk := stop.kind_eq <;> simp [hk]
    have ht : s.ahead = c.tokens ++ stop.1 :: rest := by simpa [Line.tokens] using h
    have hshown : c.ShownBy s.ahead := by rw [ht]; exact c.shownBy hne rest
    obtain ⟨s₁, h₁, p₁, d₁⟩ := statement_content scope c ht hshown (c.endsAt_lineEnd stop) hroom hh
    have e₁ : s₁.ahead = stop.1 :: rest := p₁.ahead_eq (by rw [ht]; simp)
    obtain ⟨s₂, h₂, p₂, d₂⟩ := yields_endLine stop e₁
    -- the line starts without a fault, and its end adds none
    have hf : s₂.fault = (c.faults scope).head? := by
      rw [p₂.fault, p₁.fault]
      simp
    obtain ⟨s₃, h₃, p₃, d₃⟩ := yields_perform c hf (c.isLexical_of_mem_faults scope)
    refine ⟨s₃, ?_, ?_, by omega⟩
    · rw [h₁, bind_ok h₂, bind_ok h₃]
      rfl
    · have := (p₁.trans p₂).trans p₃
      simpa [Line.moves] using this

/-- A row that is a slip fails at the token that does not fit. -/
theorem fails_statement (scope : Scope) (x : Slip) (h : s.ahead = x.tokens ++ rest)
    (hroom : s.ahead.length ≤ s.size) (hx : x.Fits) :
    Fails (statement scope) s (x.moves scope) x.diagnostic := by
  cases x with
  | stray lead g w t d after =>
    obtain ⟨hh, hi, hb, a, b, toks, ht, ha, hlead⟩ := hx
    obtain ⟨s₁, h₁, p₁, d₁⟩ := statement_eq scope (by rw [h, ht]; rfl) ha
    have e₁ : s₁.ahead = s.ahead := p₁.ahead.symm
    have e₁' : s₁.ahead = lead.tokens ++ (g.tokens ++ (w.tokens ++ t :: (after ++ rest))) := by
      rw [e₁, h]
      simp [Slip.tokens]
    obtain ⟨s₂, h₂, p₂, d₂⟩ := deed_eq scope lead e₁'
      ⟨a, b, toks ++ rest, by rw [e₁, h, ht]; rfl, ha, hlead⟩
    have e₂ : s₂.ahead = g.tokens ++ (w.tokens ++ t :: (after ++ rest)) :=
      p₂.ahead_eq (by simpa using e₁')
    -- the lead is complete, so the expression behind it is where the statement gets stuck
    obtain ⟨s₃, h₃, p₃⟩ := fails_wholeExpression scope g (s := s₂) (w := w) (t := t) (d := d)
      ⟨⟨_, e₂⟩, p₂.room (p₁.room hroom), by omega, by omega, by rwa [d₂, d₁, Nat.zero_add]⟩
      (d₂.trans d₁)
    refine ⟨s₃, ?_, p₁.trans (p₂.trans p₃)⟩
    have hv : deed scope s₁ = .error (.fatal d) s₃ := by rw [h₂, bind_error h₃]
    rw [h₁, lineOf, bind_error hv]
    rfl
  | trailing c t after =>
    obtain ⟨hh, ht, he, hs⟩ := hx
    have hc : s.ahead = c.tokens ++ t :: (after ++ rest) := by
      rw [h]
      simp [Slip.tokens]
    have hshown : c.ShownBy s.ahead := by rw [h]; exact hs.append_right rest
    obtain ⟨s₁, h₁, p₁, -⟩ := statement_content scope c hc hshown he hroom hh
    have e₁ : s₁.ahead = t :: (after ++ rest) := p₁.ahead_eq (by rw [hc]; simp)
    obtain ⟨s₂, h₂, p₂⟩ := fails_endLine e₁ ht
    exact ⟨s₂, by rw [h₁, bind_error h₂]; rfl, p₁.trans p₂⟩

end Eval

end LineCalc
