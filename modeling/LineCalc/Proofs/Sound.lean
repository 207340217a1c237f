import LineCalc.Proofs.Evaluation.Statement
import LineCalc.Proofs.Reading.Tokens

/-!
# Sound scripts

What is ahead of a script that was made from a text is a list of well-formed tokens with the end of
the input behind them, and nothing that is done to the script changes that. The end of the input is
never taken, so that there is always a token to look at, and a next row of tokens.
-/

namespace LineCalc

open Grammar Move

namespace Script

/-- What is true of a script whatever was done to it. -/
structure Sound (s : Script) : Prop where
  ends : ∃ before stop, s.ahead = before ++ [stop] ∧ stop.kind = .endOfInput ∧
    ∀ t ∈ before, t.kind ≠ .endOfInput
  wellFormed : ∀ t ∈ s.ahead, t.WellFormed
  lexical : s.Lexical
  room : s.ahead.length ≤ s.size

variable {s s' : Script} {m : List Move}

/-- A script made from proper readings, with the end of the input behind them, is sound. -/
theorem sound_ofReadings {rs : List Reading} (chunks : List Chunk) (place : Cursor)
    (h : ∀ r ∈ rs, r.Proper) :
    (ofReadings (rs ++ [⟨chunks, .ok (Reading.endToken place)⟩])).Sound where
  ends := by
    refine ⟨Reading.tokens rs, Reading.endToken place, by simp [ahead, ofReadings], rfl, ?_⟩
    intro t ht
    obtain ⟨r, hr, hi⟩ := Reading.mem_tokens.mp ht
    have hp := h r hr
    rw [Reading.Proper, hi] at hp
    exact hp.2
  wellFormed := by
    intro t ht
    simp only [ahead, ofReadings, List.nil_append, Reading.tokens_append, Reading.tokens_ok,
      Reading.tokens_nil, List.mem_append, List.mem_singleton] at ht
    -- a token of a proper reading, or the end of the input
    obtain ht | rfl := ht
    · obtain ⟨r, hr, hi⟩ := Reading.mem_tokens.mp ht
      have hp := h r hr
      rw [Reading.Proper, hi] at hp
      exact hp.1
    · exact rfl
  lexical := by
    intro r hr d hd
    obtain hr | hr := List.mem_append.mp hr
    · have hp := h r hr
      rwa [Reading.Proper, hd] at hp
    · rw [List.mem_singleton.mp hr] at hd
      cases hd
  room := Reading.length_tokens_le _

theorem sound_ofText (names : NameGrammar) (source : String) : (ofText names source).Sound := by
  obtain ⟨rs, chunks, place, h, hp⟩ := Reading.exists_of_ofText names source
  rw [ofText, h]
  exact sound_ofReadings chunks place hp

namespace Sound

theorem exists_ahead_eq_cons (h : s.Sound) : ∃ t rest, s.ahead = t :: rest := by
  obtain ⟨before, stop, he, -⟩ := h.ends
  exact List.exists_cons_of_ne_nil (by simp [he])

theorem length_ahead_pos (h : s.Sound) : 0 < s.ahead.length := by
  obtain ⟨t, rest, ha⟩ := h.exists_ahead_eq_cons
  rw [ha]
  exact Nat.succ_pos _

/-- Moves that do not take the end of the input leave a script sound. -/
theorem progress (h : s.Sound) (p : Progress s m s') : s'.Sound where
  ends := by
    obtain ⟨before, stop, he, hs, hb⟩ := h.ends
    have ha : taken m ++ s'.ahead = before ++ [stop] := p.ahead.symm.trans he
    obtain ha' | ⟨rest, last, ha'⟩ := List.eq_nil_or_concat s'.ahead
    · rw [ha', List.append_nil] at ha
      have := p.legal.kind_ne_endOfInput stop (by rw [ha]; simp)
      exact absurd hs this
    · rw [ha', List.concat_eq_append, ← List.append_assoc] at ha
      obtain ⟨rfl, hl⟩ := List.append_inj' ha rfl
      obtain rfl : last = stop := by simpa using hl
      exact ⟨rest, last, by rw [ha', List.concat_eq_append], hs,
        fun t ht => hb t (List.mem_append_right _ ht)⟩
  wellFormed t ht := h.wellFormed t (by rw [p.ahead]; exact List.mem_append_right _ ht)
  lexical := p.lexical h.lexical
  room := p.room h.room

end Sound

/-! ### Rows -/

end Script

/-- Tokens among which a line ends start with a row. -/
theorem Grammar.exists_isRow {toks : List Token} (h : ∃ t ∈ toks, t.kind.endsLine = true) :
    ∃ row rest, toks = row ++ rest ∧ IsRow row := by
  induction toks with
  | nil =>
    obtain ⟨t, ht, -⟩ := h
    cases ht
  | cons a toks ih =>
    by_cases ha : a.kind.endsLine = true
    · exact ⟨[a], toks, rfl, [], a, rfl, ha, by simp⟩
    · have h' : ∃ t ∈ toks, t.kind.endsLine = true := by
        obtain ⟨t, ht, hk⟩ := h
        obtain rfl | ht := List.mem_cons.mp ht
        · exact absurd hk ha
        · exact ⟨t, ht, hk⟩
      obtain ⟨row, rest, rfl, body, stop, rfl, hs, hb⟩ := ih h'
      refine ⟨a :: (body ++ [stop]), rest, rfl, a :: body, stop, rfl, hs, ?_⟩
      intro t ht
      obtain rfl | ht := List.mem_cons.mp ht
      · simpa using ha
      · exact hb t ht

namespace Script.Sound

variable {s : Script}

theorem exists_row (h : s.Sound) : ∃ row rest, s.ahead = row ++ rest ∧ IsRow row := by
  obtain ⟨before, stop, he, hs, -⟩ := h.ends
  exact exists_isRow ⟨stop, by simp [he], by simp [hs, TokenKind.endsLine]⟩

theorem wellFormed_of_mem_row (h : s.Sound) {row rest : List Token} (ha : s.ahead = row ++ rest) :
    ∀ t ∈ row, t.WellFormed :=
  fun t ht => h.wellFormed t (by rw [ha]; exact List.mem_append_left _ ht)

/-- What is ahead starts with a line or a slip. -/
theorem exists_line_or_slip_ahead (h : s.Sound) :
    (∃ l : Line, ∃ rest, l.height ≤ maxNesting ∧ s.ahead = l.tokens ++ rest) ∨
      ∃ x : Slip, ∃ rest, x.Fits ∧ s.ahead = x.tokens ++ rest := by
  obtain ⟨row, rest, ha, hrow⟩ := h.exists_row
  obtain ⟨l, hl, rfl⟩ | ⟨x, hx, rfl⟩ := exists_line_or_slip hrow (h.wellFormed_of_mem_row ha)
  · exact .inl ⟨l, rest, hl, ha⟩
  · exact .inr ⟨x, rest, hx, ha⟩

/-- A statement reads the next row: as a line, of which it gives the result, or as a slip, at which
it fails. -/
theorem statement_cases (h : s.Sound) (scope : Scope) {row rest : List Token}
    (ha : s.ahead = row ++ rest) (hr : IsRow row) :
    (∃ l : Line, l.height ≤ maxNesting ∧ l.tokens = row ∧
      Eval.Yields (Eval.statement scope) s (l.moves scope) 0 (l.result scope)) ∨
    ∃ x : Slip, x.Fits ∧ x.tokens = row ∧
      Eval.Fails (Eval.statement scope) s (x.moves scope) x.diagnostic := by
  obtain ⟨l, hl, rfl⟩ | ⟨x, hx, rfl⟩ := exists_line_or_slip hr (h.wellFormed_of_mem_row ha)
  · exact .inl ⟨l, hl, rfl, Eval.yields_statement scope l ha h.room hl⟩
  · exact .inr ⟨x, hx, rfl, Eval.fails_statement scope x ha h.room hx⟩

end Script.Sound

end LineCalc
