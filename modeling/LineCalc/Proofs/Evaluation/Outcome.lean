import LineCalc.Proofs.Progress

/-!
# How an evaluation ends

An evaluation `Yields` a value, or it `Fails` with a fatal diagnostic. Both come with the moves that
were done, and both are put together step by step. A breach is neither, so that each of the two says
that none occurred.
-/

namespace LineCalc

namespace Eval

variable {α β : Type} {m : Eval α} {f : α → Eval β} {a : α} {b : β} {s s' : Script}
variable {t t' : List Move} {depth depth' : Nat} {d : Diagnostic} {tok : Token} {rest : List Token}

/-- A step that takes tokens is a step of an evaluation. -/
theorem lift_ok {step : Feed α} (h : step s = .ok a s') : (step : Eval α) s = .ok a s' := by
  simp only [liftM, monadLift, MonadLift.monadLift, EStateM.adaptExcept, h]

theorem lift_error {step : Feed α} {e : Breach} (h : step s = .error e s') :
    (step : Eval α) s = .error (.breach e) s' := by
  simp only [liftM, monadLift, MonadLift.monadLift, EStateM.adaptExcept, h]

/-- The evaluation ends with the value `a`, at the given nesting depth. -/
def Yields (m : Eval α) (s : Script) (t : List Move) (depth : Nat) (a : α) : Prop :=
  ∃ s', m s = .ok a s' ∧ Progress s t s' ∧ s'.depth = depth

/-- The evaluation ends with the fatal diagnostic `d`. -/
def Fails (m : Eval α) (s : Script) (t : List Move) (d : Diagnostic) : Prop :=
  ∃ s', m s = .error (.fatal d) s' ∧ Progress s t s'

theorem Yields.bind (h : Yields m s t depth a)
    (hf : ∀ s', Progress s t s' → s'.depth = depth → Yields (f a) s' t' depth' b) :
    Yields (m >>= f) s (t ++ t') depth' b := by
  obtain ⟨s₁, h₁, p₁, d₁⟩ := h
  obtain ⟨s₂, h₂, p₂, d₂⟩ := hf s₁ p₁ d₁
  exact ⟨s₂, by rw [bind_ok h₁, h₂], p₁.trans p₂, d₂⟩

theorem Yields.bind_fails (h : Yields m s t depth a)
    (hf : ∀ s', Progress s t s' → s'.depth = depth → Fails (f a) s' t' d) :
    Fails (m >>= f) s (t ++ t') d := by
  obtain ⟨s₁, h₁, p₁, d₁⟩ := h
  obtain ⟨s₂, h₂, p₂⟩ := hf s₁ p₁ d₁
  exact ⟨s₂, by rw [bind_ok h₁, h₂], p₁.trans p₂⟩

/-- The first move of several. -/
theorem Yields.move_bind {x : Move} (h : Yields m s [x] depth a)
    (hf : ∀ s', Progress s [x] s' → s'.depth = depth → Yields (f a) s' t depth' b) :
    Yields (m >>= f) s (x :: t) depth' b := h.bind hf

theorem Yields.move_bind_fails {x : Move} (h : Yields m s [x] depth a)
    (hf : ∀ s', Progress s [x] s' → s'.depth = depth → Fails (f a) s' t d) :
    Fails (m >>= f) s (x :: t) d := h.bind_fails hf

theorem Fails.bind (h : Fails m s t d) : Fails (m >>= f) s t d := by
  obtain ⟨s₁, h₁, p₁⟩ := h
  exact ⟨s₁, bind_error h₁, p₁⟩

theorem yields_pure (a : α) (s : Script) : Yields (pure a) s [] s.depth a :=
  ⟨s, rfl, Progress.refl s, rfl⟩

theorem fails_fail (d : Diagnostic) (s : Script) : Fails (fail d : Eval α) s [] d :=
  ⟨s, rfl, Progress.refl s⟩

theorem yields_blame (d : Diagnostic) (s : Script) :
    Yields (modify (·.blame d)) s [.blame d] s.depth () :=
  ⟨s.blame d, rfl, s.progress_blame d, rfl⟩

theorem yields_report (hd : d.isLexical = false) (s : Script) :
    Yields (modify (·.report d)) s [.report d] s.depth () :=
  ⟨s.report d, rfl, Script.progress_report hd s, rfl⟩

theorem yields_emit (e : Event) (s : Script) :
    Yields (Feed.emit e : Feed Unit) s [.note e] s.depth () :=
  ⟨s.logged e, rfl, s.progress_note e, rfl⟩

theorem yields_peek {n : Nat} (h : s.ahead[n]? = some tok) :
    Yields (Feed.peek n : Feed Token) s [.look n] s.depth tok := by
  obtain ⟨s', hs, ps, -, hd⟩ := Feed.peek_eq_ok h
  exact ⟨s', lift_ok hs, ps, hd⟩

theorem yields_peek_zero (h : s.ahead = tok :: rest) :
    Yields (Feed.peek 0 : Feed Token) s [.look 0] s.depth tok := yields_peek (by rw [h]; rfl)

theorem yields_advance (h : s.ahead = tok :: rest) (ht : tok.kind ≠ .endOfInput) :
    Yields (Feed.advance : Feed Token) s [.take tok] s.depth tok := by
  obtain ⟨s', hs, ps, hd⟩ := Feed.advance_eq_ok h ht
  exact ⟨s', lift_ok hs, ps, hd⟩

theorem yields_expect {kind : TokenKind} (h : s.ahead = tok :: rest) (hk : tok.kind = kind)
    (ht : tok.kind ≠ .endOfInput) :
    Yields (expect kind) s [.look 0, .take tok] s.depth tok := by
  refine (yields_peek_zero h).move_bind fun s₁ p₁ d₁ => ?_
  rw [if_pos hk, ← d₁]
  exact yields_advance (p₁.ahead_eq h) ht

theorem fails_expect {kind : TokenKind} (h : s.ahead = tok :: rest) (hk : tok.kind ≠ kind) :
    Fails (expect kind) s [.look 0] (.unexpected tok) := by
  refine (yields_peek_zero h).move_bind_fails fun s₁ _ _ => ?_
  rw [if_neg hk]
  exact fails_fail _ _

theorem yields_descend (h : s.depth < maxNesting) :
    Yields descend s [.enter] (s.depth + 1) () := by
  refine ⟨{ s with depth := s.depth + 1 }, ?_, s.progress_enter, rfl⟩
  rw [descend, get_bind, if_pos h]
  rfl

theorem fails_descend (h : s.ahead = tok :: rest) (hd : maxNesting ≤ s.depth) :
    Fails descend s [.look 0] (.nesting tok) := by
  have hn : ¬s.depth < maxNesting := by omega
  obtain ⟨s', hs, ps⟩ : Fails (do fail (.nesting (← (Feed.peek 0 : Feed Token))) : Eval Unit) s
      [.look 0] (.nesting tok) :=
    (yields_peek_zero h).move_bind_fails fun s₁ _ _ => fails_fail _ _
  refine ⟨s', ?_, ps⟩
  rw [← hs, descend, get_bind, if_neg hn]

theorem yields_ascend (h : s.depth = depth + 1) : Yields ascend s [.leave] depth () := by
  refine ⟨{ s with depth := s.depth - 1 }, ?_, s.progress_leave, by rw [h]; rfl⟩
  rw [ascend, get_bind, h]
  rfl

end Eval

end LineCalc
