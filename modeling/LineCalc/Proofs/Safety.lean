import LineCalc.Proofs.Sound
import LineCalc.Script.Pull

/-!
# No step goes wrong

A sound script answers every request without a breach, and is sound afterwards. Whatever is asked of
the script of a text, in whatever order and with whatever bindings, no breach occurs.

The loops have turns enough because every statement but the last one takes a token, and every turn
of a loop over a line does.
-/

namespace LineCalc

open Grammar Move

/-! ### What a line takes -/

namespace Grammar

namespace Content

@[simp] theorem taken_verdict (scope : Scope) (c : Content) : taken (c.verdict scope) = [] := by
  unfold verdict
  split <;> rfl

end Content

/-- The tokens that a line takes. The end of the input is not among them. -/
def Line.takes : Line → List Token
  | .blank stop => taken stop.moves
  | .full c stop => c.tokens ++ taken stop.moves

@[simp] theorem Line.taken_moves (scope : Scope) (l : Line) :
    taken (l.moves scope) = l.takes := by
  cases l <;> simp [moves, takes]

/-- Only the end of the input takes nothing, and only it ends the script. -/
theorem Line.takes_ne_nil {scope : Scope} {l : Line} {b : Bindings}
    (h : l.result scope = some b) : l.takes ≠ [] := by
  cases l with
  | blank stop =>
    by_cases hk : stop.1.kind = .newLine
    · simp [takes, LineEnd.taken_moves_of_newLine hk]
    · rw [result, if_neg hk] at h
      cases h
  | full c stop =>
    obtain ⟨a, toks, hc, -⟩ := c.exists_tokens_eq_cons
    simp [takes, hc]

theorem Line.length_taken_pos {scope : Scope} {l : Line} {b : Bindings}
    (h : l.result scope = some b) : 0 < (taken (l.moves scope)).length := by
  rw [taken_moves]
  exact List.length_pos_iff.mpr (takes_ne_nil h)

end Grammar

namespace Progress

variable {s s' : Script} {m : List Move}

theorem length_ahead (p : Progress s m s') :
    s.ahead.length = (taken m).length + s'.ahead.length := by
  rw [p.ahead, List.length_append]

/-- Fewer tokens are ahead behind a line that was passed. -/
theorem length_ahead_lt {scope : Scope} {l : Line} {b : Bindings} (p : Progress s (l.moves scope) s')
    (h : l.result scope = some b) : s'.ahead.length < s.ahead.length := by
  have hlen := p.length_ahead
  have hpos := Line.length_taken_pos h
  omega

end Progress

namespace Script

variable {s s' : Script} {bindings : Bindings} {standIn : Span → Number} {turns : Nat}

/-! ### Pulling -/

theorem Sound.finish (h : s.Sound) : s.finish.Sound := ⟨h.ends, h.wellFormed, h.lexical, h.room⟩

theorem Sound.halt (h : s.Sound) (d : Diagnostic) : (s.halt d).Sound :=
  ⟨h.ends, h.wellFormed, h.lexical, h.room⟩

theorem pull_of_waiting (standIn : Span → Number) (bindings : Bindings) (turns : Nat)
    (h : s.queue ≠ [] ∨ s.failure ≠ none ∨ s.halted = true) :
    ∃ p s', s.pull standIn (turns + 1) bindings = (p, bindings, s') ∧ (∀ b, p ≠ .breach b) ∧
      (s.Sound → s'.Sound) := by
  rw [pull]
  cases hq : s.queue with
  | cons o rest =>
    exact ⟨.output o, _, rfl, by simp, fun h => ⟨h.ends, h.wellFormed, h.lexical, h.room⟩⟩
  | nil =>
    cases hf : s.failure with
    | some d =>
      exact ⟨.failure d, _, rfl, by simp, fun h => ⟨h.ends, h.wellFormed, h.lexical, h.room⟩⟩
    | none =>
      have hh : s.halted = true := by
        obtain h | h | h := h
        · exact absurd hq h
        · exact absurd hf h
        · exact h
      simp only [hh, if_true]
      exact ⟨.nothing, s, rfl, by simp, id⟩

/-- Pulling from a sound script: there is no breach, and the script stays sound. -/
theorem pull_sound (hs : s.Sound) (ht : s.ahead.length < turns) :
    ∃ p b' s', s.pull standIn turns bindings = (p, b', s') ∧ (∀ b, p ≠ .breach b) ∧
      s'.Sound := by
  -- on the turns: each line that is passed takes a token, so there are turns left for the rest
  induction turns generalizing s bindings with
  | zero => exact absurd ht (Nat.not_lt_zero _)
  | succ turns ih =>
    by_cases hw : s.queue ≠ [] ∨ s.failure ≠ none ∨ s.halted = true
    · obtain ⟨p, s', h, hp, hsound⟩ :=
        pull_of_waiting standIn bindings turns hw
      exact ⟨p, _, s', h, hp, hsound hs⟩
    · simp only [not_or, Decidable.not_not, Bool.not_eq_true] at hw
      obtain ⟨hq, hf, hh⟩ := hw
      have hpos := hs.length_ahead_pos
      obtain ⟨turns, rfl⟩ : ∃ n, turns = n + 1 := ⟨turns - 1, by omega⟩
      rw [pull_eq]
      simp only [hq, hf, hh, Bool.false_eq_true, if_false]
      obtain ⟨row, rest, ha, hr⟩ := hs.exists_row
      obtain ⟨l, hl, -, s₁, h₁, p₁, -⟩ | ⟨x, -, -, s₁, h₁, p₁⟩ :=
        hs.statement_cases ⟨bindings, standIn⟩ ha hr
      · have hs₁ := hs.progress p₁
        rw [h₁]
        cases hres : l.result ⟨bindings, standIn⟩ with
        | some b' =>
          refine ih hs₁ ?_
          have := p₁.length_ahead_lt hres
          omega
        | none =>
          obtain ⟨p, s', h, hp, hsound⟩ :=
            pull_of_waiting (s := s₁.finish) standIn bindings turns (.inr (.inr rfl))
          exact ⟨p, _, s', h, hp, hsound hs₁.finish⟩
      · rw [h₁]
        obtain ⟨p, s', h, hp, hsound⟩ :=
          pull_of_waiting (s := s₁.halt x.diagnostic) standIn bindings turns (.inr (.inr rfl))
        exact ⟨p, _, s', h, hp, hsound ((hs.progress p₁).halt _)⟩

theorem next_sound (hs : s.Sound) (standIn : Span → Number) (bindings : Bindings) :
    ∃ p b' s', s.next standIn bindings = (p, b', s') ∧ (∀ b, p ≠ .breach b) ∧ s'.Sound :=
  pull_sound hs (by have := hs.room; omega)

end Script

/-! ### Recovering -/

namespace Feed

variable {s s' : Script} {body rest : List Token}

/-- The moves of skipping a row. -/
def skipMoves (body : List Token) (stop : LineEnd) : List Move :=
  body.flatMap (fun t => [.look 0, .take t]) ++ stop.moves

@[simp] theorem taken_skipMoves (body : List Token) (stop : LineEnd) :
    taken (skipMoves body stop) = body ++ taken stop.moves := by
  induction body with
  | nil => rfl
  | cons t body ih => simpa [skipMoves] using ih

/-- Skipping takes the tokens up to the end of the row. -/
theorem skipLine_eq {turns : Nat} (stop : LineEnd) (ha : s.ahead = body ++ stop.1 :: rest)
    (hb : ∀ t ∈ body, t.kind.endsLine = false) (ht : body.length < turns) :
    ∃ s', skipLine turns s = .ok () s' ∧ Progress s (skipMoves body stop) s' := by
  -- token by token up to the end of the row, with a turn for each
  induction body generalizing s turns with
  | nil =>
    obtain ⟨turns, rfl⟩ : ∃ n, turns = n + 1 := ⟨turns - 1, by omega⟩
    have h₀ : s.ahead[0]? = some stop.1 := by rw [ha]; rfl
    obtain ⟨s₁, h₁, p₁, -, -⟩ := peek_eq_ok h₀
    obtain hk | hk := stop.kind_eq
    · obtain ⟨s₂, h₂, p₂, -⟩ := advance_eq_ok (p₁.ahead_eq ha) (by simp [hk])
      refine ⟨s₂, ?_, by rw [skipMoves, LineEnd.moves_of_newLine hk]; exact p₁.trans p₂⟩
      rw [skipLine, bind_ok h₁]
      simp only [hk]
      change EStateM.map (fun _ => ()) advance s₁ = _
      simp only [EStateM.map, h₂]
    · refine ⟨s₁, ?_, by rw [skipMoves, LineEnd.moves_of_endOfInput hk]; exact p₁⟩
      rw [skipLine, bind_ok h₁]
      simp only [hk]
      rfl
  | cons t body ih =>
    have hk : t.kind.endsLine = false := hb t List.mem_cons_self
    have hne : t.kind ≠ .endOfInput := by
      intro h
      simp [h, TokenKind.endsLine] at hk
    have h₀ : s.ahead[0]? = some t := by rw [ha]; rfl
    obtain ⟨s₁, h₁, p₁, -, -⟩ := peek_eq_ok h₀
    obtain ⟨s₂, h₂, p₂, -⟩ := advance_eq_ok (p₁.ahead_eq ha) hne
    have p₁₂ := p₁.trans p₂
    rw [List.length_cons] at ht
    obtain ⟨turns, rfl⟩ : ∃ n, turns = n + 1 := ⟨turns - 1, by omega⟩
    have hl : body.length < turns := by omega
    obtain ⟨s₃, h₃, p₃⟩ := ih (p₁₂.ahead_eq ha) (fun t' ht' => hb t' (List.mem_cons_of_mem _ ht')) hl
    refine ⟨s₃, ?_, p₁₂.trans p₃⟩
    rw [skipLine, bind_ok h₁]
    cases hkind : t.kind with
    | newLine | endOfInput => simp [hkind, TokenKind.endsLine] at hk
    | _ => exact (bind_ok h₂).trans h₃

/-- Recovering from a fatal diagnostic skips the row that failed. -/
theorem recover_eq (hroom : s.ahead.length ≤ s.size) (hh : s.halted = true) (hf : s.finished = false)
    (stop : LineEnd) (ha : s.ahead = body ++ stop.1 :: rest)
    (hb : ∀ t ∈ body, t.kind.endsLine = false) :
    ∃ s', recover s = .ok true { s' with halted := false } ∧
      Progress { s with failure := none } (skipMoves body stop) s' := by
  have hl : body.length < s.size + 1 := by
    rw [ha, List.length_append, List.length_cons] at hroom
    omega
  obtain ⟨s', h', p⟩ := skipLine_eq (s := { s with failure := none }) stop ha hb hl
  refine ⟨s', ?_, p⟩
  rw [recover, get_bind, if_neg (by simp [hh, hf])]
  have hset : ∀ f : PUnit → Feed Bool, (set { s with failure := none } >>= f) s =
      f ⟨⟩ { s with failure := none } := fun _ => rfl
  rw [hset]
  simp only [bind, EStateM.bind, h']
  rfl

theorem recover_eq_false (h : s.halted = false ∨ s.finished = true) :
    recover s = .ok false s := by
  rw [recover, get_bind]
  obtain h | h := h <;> simp only [h, Bool.not_false, Bool.true_or, Bool.or_true, if_true] <;> rfl

theorem recover_sound (hs : s.Sound) : ∃ r s', recover s = .ok r s' ∧ s'.Sound := by
  by_cases h : s.halted = false ∨ s.finished = true
  · exact ⟨false, s, recover_eq_false h, hs⟩
  · simp only [not_or, Bool.not_eq_false, Bool.not_eq_true] at h
    obtain ⟨row, rest, ha, body, stop, rfl, hstop, hb⟩ := hs.exists_row
    obtain ⟨s', h', p⟩ := recover_eq hs.room h.1 h.2 ⟨stop, hstop⟩ (by simpa using ha) hb
    have hs₁ : { s with failure := none }.Sound := ⟨hs.ends, hs.wellFormed, hs.lexical, hs.room⟩
    have hs' := hs₁.progress p
    exact ⟨true, _, h', hs'.ends, hs'.wellFormed, hs'.lexical, hs'.room⟩

end Feed

/-! ### Any order of requests -/

/-- A script that comes out of another one by requests, in any order and with any bindings. -/
inductive Script.Reachable (s₀ : Script) : Script → Prop where
  | start : Reachable s₀ s₀
  | next {s : Script} (h : Reachable s₀ s) (standIn : Span → Number) (bindings : Bindings) :
      Reachable s₀ (s.next standIn bindings).2.2
  | recover {s s' : Script} {r : Bool} (h : Reachable s₀ s) (hr : Feed.recover s = .ok r s') :
      Reachable s₀ s'

theorem Script.Reachable.sound {s₀ s : Script} (h : Reachable s₀ s) (hs : s₀.Sound) : s.Sound := by
  induction h with
  | start => exact hs
  | next _ standIn bindings ih =>
    obtain ⟨p, b', s', h', -, hs'⟩ := next_sound ih standIn bindings
    rw [h']
    exact hs'
  | recover _ hr ih =>
    obtain ⟨r, s', h', hs'⟩ := Feed.recover_sound ih
    rw [hr] at h'
    cases h'
    exact hs'

/-- **No request leads to a breach**, whatever was asked of the script of a text before. And the
text was cut where a text can be cut: each chunk lies between two places of the source, and its
lexeme has what its decoding looks for. -/
theorem no_breach (names : NameGrammar) (source : String) {s : Script}
    (h : Script.Reachable (.ofText names source) s) :
    (∀ standIn bindings b, (s.next standIn bindings).1 ≠ .breach b) ∧
    (∀ b s', Feed.recover s ≠ .error b s') ∧
    ∀ before chunk after, Chunk.cut names source.toList = before ++ chunk :: after →
      Chunk.SliceOf names source before chunk := by
  have hs := h.sound (Script.sound_ofText names source)
  refine ⟨fun standIn bindings b => ?_, fun b s' hr => ?_, fun _ _ _ => Chunk.sliceOf_of_cut_eq⟩
  · obtain ⟨p, b', s', h', hp, -⟩ := Script.next_sound hs standIn bindings
    rw [h']
    exact hp b
  · obtain ⟨r, s₁, h₁, -⟩ := Feed.recover_sound hs
    rw [hr] at h₁
    cases h₁

/-- After the first output of a text, or what comes instead of one. -/
theorem no_breach_after_next :
    let s := ((Script.ofText .free "1+\n2").next (fun _ => .int 0) {}).2.2
    Script.Reachable (.ofText .free "1+\n2") s ∧
    (∀ standIn bindings b, (s.next standIn bindings).1 ≠ .breach b) ∧
    (∀ b s', Feed.recover s ≠ .error b s') ∧
    ∀ before chunk after, Chunk.cut .free "1+\n2".toList = before ++ chunk :: after →
      Chunk.SliceOf .free "1+\n2" before chunk := by
  have h₀ : Script.Reachable (.ofText .free "1+\n2") (.ofText .free "1+\n2") := .start
  have h := h₀.next (fun _ => .int 0) {}
  exact ⟨h, no_breach .free "1+\n2" h⟩

end LineCalc
