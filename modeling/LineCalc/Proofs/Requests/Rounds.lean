import LineCalc.Proofs.Session.Runs

/-!
# Pulling, round by round

To find the next output a script evaluates one statement after the other, until there is something
to hand over or nothing more to do. `Round` is one turn of this loop, without turns to count, and
`Script.handOver` is what ends it. `Script.exists_rounds` says that the loop of a sound script ends,
and that `Script.next` gives what it ends with.
-/

namespace LineCalc

open Grammar Move

namespace Script

/-- What is handed over when no statement is due, and the script afterwards. -/
def handOver (s : Script) : Pulled × Script :=
  match s.queue with
  | o :: rest => (.output o, { s with queue := rest })
  | [] =>
    match s.failure with
    | some d => (.failure d, { s with failure := none })
    | none => (.nothing, s)

section

variable {s : Script} {o : Output} {rest : List Output} {d : Diagnostic}

theorem handOver_output (hq : s.queue = o :: rest) :
    s.handOver = (.output o, { s with queue := rest }) := by rw [handOver, hq]

theorem handOver_failure (hq : s.queue = []) (hf : s.failure = some d) :
    s.handOver = (.failure d, { s with failure := none }) := by
  rw [handOver, hq]
  simp only [hf]

theorem handOver_nothing (hq : s.queue = []) (hf : s.failure = none) :
    s.handOver = (.nothing, s) := by
  rw [handOver, hq]
  simp only [hf]

end

/-- An output that waits is handed over, or the fatal diagnostic behind them, or nothing. -/
theorem handOver_cases (s : Script) :
    (∃ o rest, s.queue = o :: rest ∧ s.handOver = (.output o, { s with queue := rest })) ∨
    (∃ d, s.queue = [] ∧ s.failure = some d ∧
      s.handOver = (.failure d, { s with failure := none })) ∨
    s.queue = [] ∧ s.failure = none ∧ s.handOver = (.nothing, s) := by
  cases hq : s.queue with
  | cons o rest => exact .inl ⟨o, rest, rfl, handOver_output hq⟩
  | nil =>
    cases hf : s.failure with
    | some d => exact .inr (.inl ⟨d, rfl, rfl, by rw [handOver_failure hq hf, hq]⟩)
    | none => exact .inr (.inr ⟨rfl, rfl, handOver_nothing hq hf⟩)

theorem exists_handOver_eq (s : Script) :
    ∃ queue failure, s.handOver.2 = { s with queue, failure } := by
  rcases s.handOver_cases with ⟨o, rest, -, h⟩ | ⟨d, -, -, h⟩ | ⟨-, -, h⟩
  · exact ⟨rest, s.failure, by rw [h]⟩
  · exact ⟨s.queue, none, by rw [h]⟩
  · exact ⟨s.queue, s.failure, by rw [h]⟩

end Script

open Script

/-- A turn of the loop: a statement is evaluated. -/
inductive Round (standIn : Span → Number) (b : Bindings) (s : Script) : Bindings → Script → Prop where
  | line {b' : Bindings} {t : Script} (hs : s.Due)
      (h : Work.statement standIn ⟨s, b⟩ = .ok .more ⟨t, b'⟩) : Round standIn b s b' t
  | finish {t : Script} (hs : s.Due)
      (h : Work.statement standIn ⟨s, b⟩ = .ok .finished ⟨t, b⟩) : Round standIn b s b t.finish
  | halt {d : Diagnostic} {t : Script} (hs : s.Due)
      (h : Work.statement standIn ⟨s, b⟩ = .error (.fatal d) ⟨t, b⟩) :
      Round standIn b s b (t.halt d)

/-- Some turns of the loop. -/
inductive Rounds (standIn : Span → Number) : Bindings → Script → Bindings → Script → Prop where
  | refl (b : Bindings) (s : Script) : Rounds standIn b s b s
  | step {b b₁ b' : Bindings} {s s₁ t : Script} (h : Round standIn b s b₁ s₁)
      (rest : Rounds standIn b₁ s₁ b' t) : Rounds standIn b s b' t

variable {standIn : Span → Number} {b b' b₁ b₂ : Bindings} {s t t₁ t₂ : Script} {turns : Nat}

namespace Round

theorem due (h : Round standIn b s b' t) : s.Due := by
  cases h with
  | line hs _ => exact hs
  | finish hs _ => exact hs
  | halt hs _ => exact hs

/-- All that a turn can do: it passes a line, or finds the end of the input, or stops at a slip. -/
theorem row_cases (h : Round standIn b s b' t) (hs : s.Sound) {row rest : List Token}
    (ha : s.ahead = row ++ rest) (hrow : IsRow row) :
    (∃ l : Line, l.height ≤ maxNesting ∧ l.tokens = row ∧
      Progress s (l.moves ⟨b, standIn⟩) (s.acts (l.moves ⟨b, standIn⟩)) ∧
      (l.result ⟨b, standIn⟩ = some b' ∧ t = s.acts (l.moves ⟨b, standIn⟩) ∨
        l.result ⟨b, standIn⟩ = none ∧ b' = b ∧ t = (s.acts (l.moves ⟨b, standIn⟩)).finish)) ∨
    ∃ x : Slip, x.Fits ∧ x.tokens = row ∧
      Progress s (x.moves ⟨b, standIn⟩) (s.acts (x.moves ⟨b, standIn⟩)) ∧
      b' = b ∧ t = (s.acts (x.moves ⟨b, standIn⟩)).halt x.diagnostic := by
  rcases hs.statement_cases ⟨b, standIn⟩ ha hrow with
    ⟨l, hl, hlt, u, hu, p, -⟩ | ⟨x, hx, hxt, u, hu, p⟩
  · obtain rfl := p.acts
    refine .inl ⟨l, hl, hlt, p, ?_⟩
    cases h with
    | line _ he =>
      obtain ⟨hres, rfl⟩ := EStateM.Result.ok.inj (hu.symm.trans (Work.statement_more.mp he))
      exact .inl ⟨hres, rfl⟩
    | finish _ he =>
      obtain ⟨hres, rfl⟩ := EStateM.Result.ok.inj (hu.symm.trans (Work.statement_finished.mp he))
      exact .inr ⟨hres, rfl, rfl⟩
    | halt _ he => cases hu.symm.trans (Work.statement_error.mp he)
  · obtain rfl := p.acts
    refine .inr ⟨x, hx, hxt, p, ?_⟩
    cases h with
    | line _ he => cases hu.symm.trans (Work.statement_more.mp he)
    | finish _ he => cases hu.symm.trans (Work.statement_finished.mp he)
    | halt _ he =>
      obtain ⟨hd, rfl⟩ := EStateM.Result.error.inj (hu.symm.trans (Work.statement_error.mp he))
      obtain rfl := Stop.fatal.inj hd
      exact ⟨rfl, rfl⟩

theorem sound (h : Round standIn b s b' t) (hs : s.Sound) : t.Sound := by
  obtain ⟨row, rest, ha, hrow⟩ := hs.exists_row
  rcases h.row_cases hs ha hrow with ⟨l, -, -, p, ⟨-, rfl⟩ | ⟨-, -, rfl⟩⟩ | ⟨x, -, -, p, -, rfl⟩
  · exact hs.progress p
  · exact (hs.progress p).finish
  · exact (hs.progress p).halt _

end Round

theorem Rounds.sound (h : Rounds standIn b s b' t) (hs : s.Sound) : t.Sound := by
  induction h with
  | refl => exact hs
  | step h _ ih => exact ih (h.sound hs)

/-- What every turn keeps is kept by the loop. -/
theorem Rounds.induct {P : Bindings → Script → Prop} (h : Rounds standIn b s b' t) (hs : s.Sound)
    (hr : ∀ {b s b' t}, s.Sound → Round standIn b s b' t → P b s → P b' t) (hp : P b s) :
    P b' t := by
  induction h with
  | refl => exact hp
  | step h _ ih => exact ih (h.sound hs) (hr hs h hp)

theorem Rounds.concat (h : Rounds standIn b s b₁ t₁) (hl : Round standIn b₁ t₁ b' t) :
    Rounds standIn b s b' t := by
  induction h with
  | refl => exact .step hl (.refl _ _)
  | step h _ ih => exact .step h (ih hl)

theorem Round.unique (h₁ : Round standIn b s b₁ t₁) (h₂ : Round standIn b s b₂ t₂) :
    b₁ = b₂ ∧ t₁ = t₂ := by
  cases h₁ with
  | line _ h₁ =>
    cases h₂ with
    | line _ h₂ =>
      cases h₁.symm.trans h₂
      exact ⟨rfl, rfl⟩
    | finish _ h₂ | halt _ h₂ => cases h₁.symm.trans h₂
  | finish _ h₁ =>
    cases h₂ with
    | finish _ h₂ =>
      cases h₁.symm.trans h₂
      exact ⟨rfl, rfl⟩
    | line _ h₂ | halt _ h₂ => cases h₁.symm.trans h₂
  | halt _ h₁ =>
    cases h₂ with
    | halt _ h₂ =>
      cases h₁.symm.trans h₂
      exact ⟨rfl, rfl⟩
    | line _ h₂ | finish _ h₂ => cases h₁.symm.trans h₂

/-- Two loops that go on as long as a statement is due end alike. -/
theorem Rounds.unique (h₁ : Rounds standIn b s b₁ t₁) (h₂ : Rounds standIn b s b₂ t₂)
    (hd₁ : ¬t₁.Due) (hd₂ : ¬t₂.Due) : b₁ = b₂ ∧ t₁ = t₂ := by
  induction h₁ with
  | refl =>
    cases h₂ with
    | refl => exact ⟨rfl, rfl⟩
    | step h _ => exact absurd h.due hd₁
  | step h _ ih =>
    cases h₂ with
    | refl => exact absurd h.due hd₂
    | step h' rest =>
      obtain ⟨rfl, rfl⟩ := h.unique h'
      exact ih rest hd₁

namespace Script

theorem not_due_of_halted (h : s.halted = true) : ¬s.Due := by
  intro hs
  rw [hs.halted] at h
  cases h

/-- What waits is handed over, or there is nothing. -/
theorem pull_of_not_due (h : ¬s.Due) (standIn : Span → Number) (b : Bindings) (turns : Nat) :
    s.pull standIn (turns + 1) b = (s.handOver.1, b, s.handOver.2) := by
  rw [pull]
  rcases s.handOver_cases with ⟨o, rest, hq, ho⟩ | ⟨d, hq, hf, ho⟩ | ⟨hq, hf, ho⟩
  · simp only [ho, hq]
  · simp only [ho, hq, hf]
  · cases hh : s.halted with
    | true =>
      simp only [ho, hq, hf]
      rfl
    | false => exact absurd ⟨hq, hf, hh⟩ h

/-- With more turns than there are tokens ahead, the loop gets to its end. -/
theorem exists_rounds_of_lt (hs : s.Sound) (b : Bindings) (ht : s.ahead.length < turns) :
    ∃ b' t, Rounds standIn b s b' t ∧ ¬t.Due ∧
      s.pull standIn turns b = (t.handOver.1, b', t.handOver.2) := by
  induction turns generalizing s b with
  | zero => exact absurd ht (Nat.not_lt_zero _)
  | succ turns ih =>
    by_cases hd : s.Due
    · -- a script that stops has a turn left for what it hands over
      have hpos := hs.length_ahead_pos
      obtain ⟨turns, rfl⟩ : ∃ n, turns = n + 1 := ⟨turns - 1, by omega⟩
      rw [pull_of_due hd]
      obtain ⟨row, rest, ha, hrow⟩ := hs.exists_row
      rcases hs.statement_cases ⟨b, standIn⟩ ha hrow with ⟨l, -, -, u, hu, p, -⟩ | ⟨x, -, -, u, hu, p⟩
      · rw [hu]
        cases hres : l.result ⟨b, standIn⟩ with
        | none =>
          rw [hres] at hu
          have hn : ¬u.finish.Due := not_due_of_halted rfl
          have hround := Round.finish hd (Work.statement_finished.mpr hu)
          exact ⟨b, u.finish, .step hround (.refl _ _), hn, pull_of_not_due hn ..⟩
        | some b₁ =>
          rw [hres] at hu
          have hlt := p.length_ahead_lt hres
          obtain ⟨b', t, hr, hn, hp⟩ := ih (hs.progress p) b₁ (by omega)
          exact ⟨b', t, .step (.line hd (Work.statement_more.mpr hu)) hr, hn, hp⟩
      · rw [hu]
        have hn : ¬(u.halt x.diagnostic).Due := not_due_of_halted rfl
        exact ⟨b, _, .step (.halt hd (Work.statement_error.mpr hu)) (.refl _ _), hn, pull_of_not_due hn ..⟩
    · exact ⟨b, s, .refl b s, hd, pull_of_not_due hd ..⟩

/-- The next output of a sound script is what its loop ends with. -/
theorem exists_rounds (hs : s.Sound) (standIn : Span → Number) (b : Bindings) :
    ∃ b' t, Rounds standIn b s b' t ∧ ¬t.Due ∧
      s.next standIn b = (t.handOver.1, b', t.handOver.2) :=
  exists_rounds_of_lt hs b (by have := hs.room; omega)

theorem Sound.handOver (hs : s.Sound) : s.handOver.2.Sound := by
  obtain ⟨queue, failure, h⟩ := s.exists_handOver_eq
  rw [h]
  exact ⟨hs.ends, hs.wellFormed, hs.lexical, hs.room⟩

end Script

end LineCalc
