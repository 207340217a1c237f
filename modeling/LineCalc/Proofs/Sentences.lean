import LineCalc.Proofs.Sound

/-!
# Sentences and where they break off

A row of tokens is a sentence if it is a line that nests no deeper than allowed. A statement
succeeds on the sentences and on nothing else. On any other row it fails at the first token with
which no sentence goes on.

That the tokens in front of it are the start of a sentence is shown by filling the gap they lead
into. That no sentence goes on with it needs no grammar: the statement would have to succeed on such
a sentence, but it fails as soon as it has read that far.
-/

namespace LineCalc

open Grammar Eval

/-- A line that nests no deeper than allowed. -/
def Sentence (toks : List Token) : Prop := ∃ l : Line, l.height ≤ maxNesting ∧ l.tokens = toks

/-- The start of a sentence. -/
def Viable (toks : List Token) : Prop := ∃ more, Sentence (toks ++ more)

/-- Behind these tokens an operand is to come, with `n` levels of nesting open. -/
def OperandNext (toks : List Token) (n : Nat) : Prop :=
  ∃ (lead : Lead) (g : Gap .sum), toks = lead.tokens ++ g.tokens ∧ g.height ≤ maxNesting ∧
    g.levels = n

namespace Grammar

/-- A line end, wherever it stands. -/
def someLineEnd : LineEnd := ⟨⟨.endOfInput, .none, "", {}⟩, rfl⟩

theorem Gap.inExpression {st : Stratum} (g : Gap st) :
    ∀ t ∈ g.tokens, t.kind.inExpression = true := by
  obtain ⟨closers, h⟩ := g.tokens_fill (.primary (.literal ⟨⟨.number, .number (.int 0), "0", {}⟩,
    .int 0, rfl, rfl⟩))
  intro t ht
  exact (g.fill _).inExpression t (by rw [h]; exact List.mem_append_left _ ht)

/-! ### Slips -/

namespace Slip

/-- The same slip with other tokens behind it. -/
def withAfter (more : List Token) : Slip → Slip
  | stray lead g w t d _ => stray lead g w t d more
  | trailing c t _ => trailing c t more

variable {x : Slip}

theorem tokens_withAfter (x : Slip) (more : List Token) :
    (x.withAfter more).tokens = x.before ++ x.token :: more := by
  cases x <;> simp [tokens, withAfter, before, token]

/-- What stands in front is the start of a sentence: the gap is filled, and the line ended. -/
theorem Fits.viable (h : x.Fits) : Viable x.before := by
  cases x with
  | stray lead g w t d after =>
    obtain ⟨hh, hi, -, -⟩ := h
    obtain ⟨u, more, hu, hu'⟩ := w.exists_operand
    obtain ⟨closers, hf⟩ := g.tokens_fill u
    refine ⟨more ++ (closers ++ [someLineEnd.1]),
      .full (.expression lead (g.fill u) none) someLineEnd, ?_, ?_⟩
    · change (g.fill u).height ≤ maxNesting
      rw [g.height_fill, hu']
      exact Nat.max_le.mpr ⟨hh, hi⟩
    · simp [Line.tokens, Content.tokens, Remark.tokens, hf, hu, before]
  | trailing c t after => exact ⟨[someLineEnd.1], .full c someLineEnd, h.1, rfl⟩

theorem kind_ne_ident {w : Want} {t : Token} {d : Diagnostic} {n : Nat} (hw : w.tokens = [])
    (h : w.Blames n t d) : t.kind ≠ .ident := by
  cases w with
  | operand =>
    intro hk
    obtain ⟨h, -⟩ | ⟨h, -⟩ := h <;>
      simp [hk, TokenKind.startsOperand, TokenKind.opensLevel] at h
  | bracket | closeCall | close => cases hw

/-- Two tokens are shown. If one of them is `t`, what stands in front of it decides. -/
theorem shownBy_withAfter {lead : Lead} {front after more : List Token} {t : Token}
    (hf : front = [] → t.kind ≠ .ident) (hl : 2 ≤ (front ++ t :: more).length)
    (hs : lead.ShownBy (front ++ t :: after)) : lead.ShownBy (front ++ t :: more) := by
  obtain ⟨a, b, rest, he, ha, hlead⟩ := hs
  match front with
  | [] =>
    obtain ⟨rfl, -⟩ := List.cons.inj he
    obtain ⟨b', more, rfl⟩ := List.exists_cons_of_ne_nil (l := more) (by rintro rfl; simp at hl)
    refine ⟨t, b', more, rfl, ha, ?_⟩
    cases lead with
    | print => exact ⟨hlead.1, fun hi => hf rfl hi.1⟩
    | store => trivial
  | [a'] =>
    simp only [List.cons_append, List.nil_append, List.cons.injEq] at he
    obtain ⟨rfl, rfl, -⟩ := he
    exact ⟨a', t, more, rfl, ha, hlead⟩
  | a' :: b' :: front =>
    simp only [List.cons_append, List.cons.injEq] at he
    obtain ⟨rfl, rfl, -⟩ := he
    exact ⟨a', b', front ++ t :: more, rfl, ha, hlead⟩

/-- What a slip shows does not depend on what stands behind the token that does not fit. -/
theorem Fits.withAfter (h : x.Fits) {more : List Token}
    (hm : 2 ≤ (x.before ++ x.token :: more).length) : (x.withAfter more).Fits := by
  cases x with
  | stray lead g w t d after =>
    obtain ⟨hh, hi, hb, hs⟩ := h
    refine ⟨hh, hi, hb, ?_⟩
    have hw : lead.tokens ++ (g.tokens ++ w.tokens) = [] → t.kind ≠ .ident := fun he =>
      kind_ne_ident (List.append_eq_nil_iff.mp (List.append_eq_nil_iff.mp he).2).2 hb
    have hs' : lead.ShownBy ((lead.tokens ++ (g.tokens ++ w.tokens)) ++ t :: after) := by
      simpa [tokens] using hs
    simpa [tokens, Slip.withAfter] using shownBy_withAfter hw hm hs'
  | trailing c t after =>
    obtain ⟨hh, ht, he, hs⟩ := h
    refine ⟨hh, ht, he, ?_⟩
    cases c with
    | remark r => trivial
    | expression lead e r? =>
      refine shownBy_withAfter (fun hf => absurd hf ?_) hm hs
      obtain ⟨a, toks, hc, -⟩ := (Content.expression lead e r?).exists_tokens_eq_cons
      simp [hc]

end Slip

end Grammar

/-! ### Statements on sentences -/

section

variable {s : Script} {toks row rest : List Token}

/-- A script with nothing but the given tokens. -/
def Script.ofTokens (toks : List Token) : Script where
  unread := []
  size := toks.length
  lookahead := toks

theorem Script.ahead_ofTokens (toks : List Token) : (ofTokens toks).ahead = toks :=
  List.append_nil toks

theorem Script.room_ofTokens (toks : List Token) :
    (ofTokens toks).ahead.length ≤ (ofTokens toks).size := by
  rw [ahead_ofTokens]
  exact Nat.le_refl _

theorem Sentence.not_fits {x : Slip} (h : Sentence x.tokens) : ¬x.Fits := by
  intro hx
  obtain ⟨l, hl, ht⟩ := h
  have ha : (Script.ofTokens x.tokens).ahead = x.tokens ++ [] := by
    rw [Script.ahead_ofTokens, List.append_nil]
  obtain ⟨s₁, h₁, -⟩ := yields_statement (.ofBindings {}) l (by rw [ha, ht])
    (Script.room_ofTokens _) hl
  obtain ⟨s₂, h₂, -⟩ := fails_statement (.ofBindings {}) x ha (Script.room_ofTokens _) hx
  rw [h₁] at h₂
  cases h₂

/-- No sentence goes on with the token that does not fit. -/
theorem Grammar.Slip.Fits.not_viable {x : Slip} (h : x.Fits) :
    ¬Viable (x.before ++ [x.token]) := by
  rintro ⟨more, hs⟩
  rw [List.append_assoc, List.singleton_append] at hs
  have hm : 2 ≤ (x.before ++ x.token :: more).length := by
    cases hb : x.before with
    | cons a before =>
      simp only [List.length_append, List.length_cons]
      omega
    | nil =>
      -- the sentence would be a blank line, but a slip does not start with the end of a line
      cases more with
      | cons b more =>
        simp only [List.nil_append, List.length_cons]
        omega
      | nil =>
        rw [hb] at hs
        obtain ⟨l, -, hl⟩ := hs
        have hk : x.token.kind.endsLine = true := by
          cases l with
          | blank stop =>
            have he : stop.1 = x.token := by simpa [Line.tokens] using hl
            exact he ▸ stop.2
          | full c stop =>
            obtain ⟨a, toks, hc, -⟩ := c.exists_tokens_eq_cons
            simp [Line.tokens, hc] at hl
        cases x with
        | stray lead g w t d after =>
          obtain ⟨-, -, -, a, b, rest, he, ha, -⟩ := h
          rw [Slip.tokens_eq, hb] at he
          obtain ⟨rfl, -⟩ := List.cons.inj he
          exact absurd hk (by simpa using ha)
        | trailing c t after => exact absurd hk (by simpa [Slip.token] using h.2.1)
  rw [← Slip.tokens_withAfter] at hs
  exact hs.not_fits (h.withAfter hm)

/-- A diagnostic of a statement names the token that does not fit. -/
theorem Grammar.Slip.Fits.diagnostic_eq {x : Slip} (h : x.Fits) :
    x.diagnostic = .nesting x.token ∨ x.diagnostic = .unexpected x.token := by
  cases x with
  | stray => exact h.2.2.1.eq_or_eq
  | trailing => exact .inr rfl

/-- Nesting is blamed at an operand that would be nested too deeply. -/
theorem Grammar.Slip.Fits.operandNext {x : Slip} (h : x.Fits) (hd : x.diagnostic = .nesting x.token) :
    x.token.kind.opensLevel = true ∧ OperandNext x.before maxNesting := by
  cases x with
  | stray lead g w t d after =>
    obtain ⟨hh, hi, hb, -⟩ := h
    have hd : d = .nesting t := hd
    subst hd
    cases w with
    | operand =>
      obtain ⟨ho, hl, -⟩ | ⟨-, he⟩ := hb
      · exact ⟨ho, lead, g, by simp [Slip.before, Want.tokens], hh, hl⟩
      · cases congrArg Diagnostic.problem he
    | bracket => cases congrArg Diagnostic.problem hb.2
    | closeCall | close => cases congrArg Diagnostic.problem hb.2.2
  | trailing c t after => cases congrArg Diagnostic.problem hd

/-- Where no deeper nesting is allowed, a token that would nest an operand is a slip. -/
theorem OperandNext.fits {t : Token} (h : OperandNext toks maxNesting)
    (ht : t.kind.opensLevel = true) (after : List Token) :
    ∃ x : Slip, x.Fits ∧ x.tokens = toks ++ t :: after ∧ x.diagnostic = .nesting t := by
  obtain ⟨lead, g, rfl, hh, hl⟩ := h
  refine ⟨.stray lead g .operand t (.nesting t) after, ⟨hh, Nat.le_of_eq hl, .inl ⟨ht, hl, rfl⟩, ?_⟩,
    by simp [Slip.tokens, Want.tokens], rfl⟩
  have hte : t.kind.inExpression = true := by
    cases hk : t.kind <;> simp_all [TokenKind.opensLevel, TokenKind.inExpression]
  cases lead with
  | store m equals =>
    exact ⟨m.token, equals.1, _, rfl, by simp [m.isIdent, TokenKind.endsLine], trivial⟩
  | print =>
    -- many levels are open, so the gap has a token in front
    obtain ⟨a, toks, hg⟩ := List.exists_cons_of_ne_nil (l := g.tokens) (by
      intro he
      have := g.levels_le_length
      rw [he, hl] at this
      exact absurd this (by decide))
    have ha : a.kind.inExpression = true := g.inExpression a (by simp [hg])
    obtain ⟨b, rest, hb, hbe⟩ : ∃ b rest, toks ++ t :: after = b :: rest ∧
        b.kind.inExpression = true := by
      cases toks with
      | nil => exact ⟨t, after, rfl, hte⟩
      | cons b toks => exact ⟨b, _, rfl, g.inExpression b (by simp [hg])⟩
    refine ⟨a, b, rest, ?_, TokenKind.endsLine_of_inExpression ha, ?_, ?_⟩
    · simp [Slip.tokens, Lead.tokens, Want.tokens, hg, hb]
    · intro hk
      simp [hk, TokenKind.inExpression] at ha
    · rintro ⟨-, hk⟩
      simp [hk, TokenKind.inExpression] at hbe

/-- **A statement accepts its grammar and blames the first token that does not fit.** On a sentence
it succeeds; on any other row it fails at the first token with which no sentence goes on. The
complaint is of nesting if the token would open one more level than there may be, and of the token
being unexpected otherwise. -/
theorem statement_accepts_iff (standIn : Span → Number) (b : Bindings) (hs : s.Sound)
    (ha : s.ahead = row ++ rest) (hr : IsRow row) :
    ((∃ r w, Work.statement standIn ⟨s, b⟩ = .ok r w) ↔ Sentence row) ∧
    (¬Sentence row → ∃ before t after d w, row = before ++ t :: after ∧
      Work.statement standIn ⟨s, b⟩ = .error (.fatal d) w ∧ Viable before ∧
      ¬Viable (before ++ [t]) ∧ (d = .nesting t ∨ d = .unexpected t) ∧
      (d = .nesting t ↔ t.kind.opensLevel = true ∧ OperandNext before maxNesting)) := by
  obtain ⟨l, hl, ht, hy⟩ | ⟨x, hx, rfl, hf⟩ := hs.statement_cases ⟨b, standIn⟩ ha hr
  · have hrow : Sentence row := ⟨l, hl, ht⟩
    obtain ⟨s', h', -⟩ := hy
    exact ⟨⟨fun _ => hrow, fun _ => ⟨_, _, Work.statement_ok h'⟩⟩, fun h => absurd hrow h⟩
  · obtain ⟨s', h', -⟩ := hf
    have hw := Work.statement_error.mpr h'
    refine ⟨⟨?_, fun h => absurd hx h.not_fits⟩, fun _ => ⟨x.before, x.token, x.after,
      x.diagnostic, _, x.tokens_eq, hw, hx.viable, hx.not_viable, hx.diagnostic_eq,
      hx.operandNext, ?_⟩⟩
    · rintro ⟨r, w, h₁⟩
      rw [hw] at h₁
      cases h₁
    · rintro ⟨ho, hn⟩
      obtain ⟨y, hy, hyt, hyd⟩ := hn.fits ho x.after
      obtain ⟨s₁, h₁, -⟩ :=
        fails_statement ⟨b, standIn⟩ y (by rw [ha, x.tokens_eq, hyt]) hs.room hy
      obtain ⟨he, -⟩ := EStateM.Result.error.inj (h'.symm.trans h₁)
      exact (Stop.fatal.inj he).trans hyd

end

/-- The tokens of `1+` and the end of the line. -/
def danglingSum : List Token :=
  [⟨.number, .number (.int 1), "1", ⟨⟨1, 1⟩, ⟨1, 2⟩⟩⟩, ⟨.plus, .none, "+", ⟨⟨1, 2⟩, ⟨1, 3⟩⟩⟩,
    ⟨.newLine, .none, "\n", ⟨⟨1, 3⟩, ⟨2, 1⟩⟩⟩]

/-- An operator without a right operand. -/
theorem statement_accepts_iff_danglingSum :
    let s := Script.ofReadings (danglingSum.map (fun t => ⟨[], .ok t⟩) ++
      [⟨[], .ok (Reading.endToken {})⟩])
    s.Sound ∧ IsRow danglingSum ∧
    ((∃ r w, Work.statement (fun _ => .int 0) ⟨s, {}⟩ = .ok r w) ↔ Sentence danglingSum) ∧
    (¬Sentence danglingSum → ∃ before t after d w, danglingSum = before ++ t :: after ∧
      Work.statement (fun _ => .int 0) ⟨s, {}⟩ = .error (.fatal d) w ∧ Viable before ∧
      ¬Viable (before ++ [t]) ∧ (d = .nesting t ∨ d = .unexpected t) ∧
      (d = .nesting t ↔ t.kind.opensLevel = true ∧ OperandNext before maxNesting)) := by
  have hp : ∀ r ∈ danglingSum.map fun t => (⟨[], .ok t⟩ : Reading), r.Proper := by
    simp [danglingSum, Reading.Proper, Token.WellFormed]
  have hs := Script.sound_ofReadings [] {} hp
  have hr : IsRow danglingSum :=
    ⟨danglingSum.take 2, ⟨.newLine, .none, "\n", ⟨⟨1, 3⟩, ⟨2, 1⟩⟩⟩, rfl, rfl, by decide⟩
  exact ⟨hs, hr, statement_accepts_iff _ _ hs rfl hr⟩

end LineCalc
