import LineCalc.Proofs.Session.Rows

/-!
# More text behind

What a script does with the tokens in front of it does not depend on what is to be read behind them.
So a run over whole lines is the same whether the text ends there or goes on.
-/

namespace LineCalc

open Grammar Move

variable {standIn : Span → Number} {b b' : Bindings} {s s' t : Script}
variable {m : List Move} {rest : List Token} {c : Bool} {os os' : List Output}

namespace Script

/-- The script with more to be read behind. -/
def extend (s : Script) (more : List Reading) (size : Nat) : Script :=
  { s with unread := s.unread ++ more, size := size }

variable {more : List Reading} {n : Nat}

theorem lookahead_extend (s : Script) (more : List Reading) (n : Nat) :
    (s.extend more n).lookahead = s.lookahead := rfl

theorem ahead_extend (s : Script) (more : List Reading) (n : Nat) :
    (s.extend more n).ahead = s.ahead ++ Reading.tokens more := by
  show s.lookahead ++ Reading.tokens (s.unread ++ more) = _
  rw [Reading.tokens_append, ← List.append_assoc]
  rfl

theorem absorb_extend (s : Script) (r : Reading) :
    (s.extend more n).absorb r = (s.absorb r).extend more n := by
  obtain ⟨chunks, item⟩ := r
  cases item <;> rfl

/-- Reading on, as far as the tokens are there, does not reach what is behind. -/
theorem fillFrom_extend {i : Nat} {rs : List Reading}
    (h : i < (s.lookahead ++ Reading.tokens rs).length) :
    ∃ t, s.fillFrom i rs = some t ∧
      (s.extend more n).fillFrom i (rs ++ more) = some (t.extend more n) := by
  -- as long as enough tokens are there, the last one is repeated on neither side
  induction rs generalizing s with
  | nil =>
    rw [Reading.tokens_nil, List.append_nil] at h
    have hz : i + 1 - s.lookahead.length = 0 := by omega
    obtain ⟨last, hl⟩ : ∃ last, s.lookahead.getLast? = some last := by
      cases hl : s.lookahead.getLast? with
      | none =>
        rw [List.getLast?_eq_none_iff.mp hl] at h
        cases h
      | some last => exact ⟨last, rfl⟩
    refine ⟨{ s with unread := [] }, ?_, ?_⟩
    · rw [fillFrom, hl, hz]
      simp
    · cases more with
      | nil =>
        rw [List.nil_append, fillFrom, lookahead_extend, hl, hz]
        simp [extend]
      | cons r more =>
        rw [List.nil_append, fillFrom, lookahead_extend, if_pos h]
        rfl
  | cons r rs ih =>
    rw [fillFrom, List.cons_append, fillFrom, lookahead_extend]
    by_cases hi : i < s.lookahead.length
    · rw [if_pos hi, if_pos hi]
      exact ⟨_, rfl, rfl⟩
    · rw [if_neg hi, if_neg hi, absorb_extend]
      refine ih ?_
      have ha := (effect_absorb s r rs).ahead
      simp only [ahead, Move.taken_nil, List.nil_append] at ha
      rwa [← ha]

theorem act_extend {x : Move} (h : x.Legal s.ahead) :
    (s.extend more n).act x = (s.act x).extend more n := by
  cases x with
  | look i =>
    obtain ⟨t, h₁, h₂⟩ := fillFrom_extend h
    show ((s.extend more n).fillFrom i (s.unread ++ more)).getD _ =
      ((s.fillFrom i s.unread).getD s).extend more n
    rw [h₁, h₂]
    rfl
  | take tok =>
    obtain ⟨hh, -⟩ := h
    have hl : 0 < s.ahead.length := by
      obtain ⟨rest, ha⟩ := List.head?_eq_some_iff.mp hh
      rw [ha]
      exact Nat.succ_pos _
    obtain ⟨t, h₁, h₂⟩ := fillFrom_extend hl
    show (((s.extend more n).fillFrom 0 (s.unread ++ more)).getD _).shift tok =
      (((s.fillFrom 0 s.unread).getD s).shift tok).extend more n
    rw [h₁, h₂]
    rfl
  | _ => rfl

theorem acts_extend (h : AllLegal s.ahead m) :
    (s.extend more n).acts m = (s.acts m).extend more n := by
  induction m generalizing s with
  | nil => rfl
  | cons x m ih =>
    obtain ⟨hx, hm⟩ := h
    rw [acts_cons, acts_cons, act_extend hx]
    refine ih ?_
    have ha := (progress_act hx).ahead
    rw [taken_cons, taken_nil, List.append_nil] at ha
    rwa [ha, List.drop_left] at hm

end Script

/-! ### Whole lines -/

/-- All that is ahead are whole lines, with nothing behind the last one. -/
structure Whole (s : Script) : Prop where
  newLine : ∀ t, s.ahead.getLast? = some t → t.kind = .newLine
  token : ∀ r, s.unread.getLast? = some r → ∃ t, r.item = .ok t
  wellFormed : ∀ t ∈ s.ahead, t.WellFormed
  inside : ∀ t ∈ s.ahead, t.kind ≠ .endOfInput
  lexical : s.Lexical
  room : s.ahead.length ≤ s.size

namespace Whole

theorem eq_nil (h : Whole s) (ha : s.ahead = []) : s.lookahead = [] ∧ s.unread = [] := by
  obtain ⟨hl, ht⟩ := List.append_eq_nil_iff.mp ha
  refine ⟨hl, ?_⟩
  cases hu : s.unread.getLast? with
  | none => exact List.getLast?_eq_none_iff.mp hu
  | some r =>
    obtain ⟨tok, hr⟩ := h.token r hu
    have hm : tok ∈ Reading.tokens s.unread :=
      Reading.mem_tokens.mpr ⟨r, List.mem_of_getLast? hu, hr⟩
    rw [ht] at hm
    cases hm

theorem progress (h : Whole s) (p : Progress s m s') : Whole s' where
  newLine t ht := by
    refine h.newLine t ?_
    rw [p.ahead, List.getLast?_append, ht]
    rfl
  token r hr := by
    obtain ⟨read, new, hu, -⟩ := p.queue h.lexical
    refine h.token r ?_
    rw [hu, List.getLast?_append, hr]
    rfl
  wellFormed t ht := h.wellFormed t (by rw [p.ahead]; exact List.mem_append_right _ ht)
  inside t ht := h.inside t (by rw [p.ahead]; exact List.mem_append_right _ ht)
  lexical := p.lexical h.lexical
  room := p.room h.room

theorem exists_row (h : Whole s) (ha : s.ahead ≠ []) :
    ∃ row rest, s.ahead = row ++ rest ∧ IsRow row := by
  refine exists_isRow ⟨s.ahead.getLast ha, List.getLast_mem ha, ?_⟩
  rw [h.newLine _ (List.getLast?_eq_some_getLast ha)]
  rfl

theorem flushed (h : Whole s) : Whole s.flushed :=
  ⟨h.newLine, h.token, h.wellFormed, h.inside, h.lexical, h.room⟩

theorem failed (h : Whole s) (d : Diagnostic) : Whole (s.failed d) :=
  ⟨h.newLine, h.token, h.wellFormed, h.inside, h.lexical, h.room⟩

end Whole

/-- Is there room for the script with more behind? -/
def Script.Holds (s : Script) (more : List Reading) (n : Nat) : Prop :=
  s.ahead.length + (Reading.tokens more).length ≤ n

/-- Whatever stands behind, a run on `s` puts out `os` and becomes one on `t`. -/
def Crosses (c : Bool) (standIn : Span → Number) (b : Bindings) (s : Script) (os : List Output)
    (b' : Bindings) (t : Script) : Prop :=
  ∀ more n, s.Holds more n → t.Holds more n ∧ ∀ os' c' b'' u,
    Runs c standIn b' (t.extend more n) os' c' b'' u →
    Runs c standIn b (s.extend more n) (os ++ os') c' b'' u

/-- Whatever stands behind, a run on `s` puts out `os` and stops at a fatal diagnostic with `t`. -/
def Halts (c : Bool) (standIn : Span → Number) (b : Bindings) (s : Script) (os : List Output)
    (b' : Bindings) (t : Script) : Prop :=
  ∀ more n, s.Holds more n → Runs c standIn b (s.extend more n) os false b' (t.extend more n)

theorem Crosses.refl (c : Bool) (standIn : Span → Number) (b : Bindings) (s : Script) :
    Crosses c standIn b s [] b s :=
  fun _ _ hn => ⟨hn, fun _ _ _ _ h => h⟩

theorem Crosses.trans {b₁ : Bindings} {s₁ : Script} (h₁ : Crosses c standIn b s os b₁ s₁)
    (h₂ : Crosses c standIn b₁ s₁ os' b' t) : Crosses c standIn b s (os ++ os') b' t := by
  intro more n hn
  obtain ⟨hn₁, h₁⟩ := h₁ more n hn
  obtain ⟨hn₂, h₂⟩ := h₂ more n hn₁
  refine ⟨hn₂, fun os'' c' b'' u h => ?_⟩
  rw [List.append_assoc]
  exact h₁ _ _ _ _ (h₂ _ _ _ _ h)

theorem Crosses.halts {b₁ : Bindings} {s₁ : Script} (h₁ : Crosses c standIn b s os b₁ s₁)
    (h₂ : Halts c standIn b₁ s₁ os' b' t) : Halts c standIn b s (os ++ os') b' t := by
  intro more n hn
  obtain ⟨hn₁, h₁⟩ := h₁ more n hn
  exact h₁ _ _ _ _ (h₂ more n hn₁)

theorem Script.Holds.room {more : List Reading} {n : Nat} (h : s.Holds more n) :
    (s.extend more n).ahead.length ≤ (s.extend more n).size := by
  rw [ahead_extend, List.length_append]
  exact h

theorem Script.Holds.of_ahead {more : List Reading} {n : Nat} (h : s.Holds more n)
    (hl : t.ahead.length ≤ s.ahead.length) : t.Holds more n :=
  Nat.le_trans (Nat.add_le_add_right hl _) h

theorem ahead_extend_of_append {toks : List Token} (ha : s.ahead = toks ++ rest)
    (more : List Reading) (n : Nat) :
    (s.extend more n).ahead = toks ++ (rest ++ Reading.tokens more) := by
  rw [Script.ahead_extend, ha, List.append_assoc]

theorem crosses_line (c : Bool) (l : Line) (hl : l.height ≤ maxNesting)
    (ha : s.ahead = l.tokens ++ rest) (hroom : s.ahead.length ≤ s.size)
    (hb : l.result ⟨b, standIn⟩ = some b') :
    Crosses c standIn b s (s.acts (l.moves ⟨b, standIn⟩)).queue b'
      (s.acts (l.moves ⟨b, standIn⟩)).flushed := by
  intro more n hn
  have p := l.progress ⟨b, standIn⟩ hl ha hroom
  refine ⟨hn.of_ahead (t := (s.acts (l.moves ⟨b, standIn⟩)).flushed) ?_, fun os' c' b'' u h => ?_⟩
  · show (s.acts (l.moves ⟨b, standIn⟩)).ahead.length ≤ _
    have := p.length_ahead
    omega
  · have hp := Passes.of_line c l hl (ahead_extend_of_append ha more n) hn.room hb
    rw [Script.acts_extend p.legal] at hp
    exact .pass hp h

theorem halts_slip (x : Slip) (hx : x.Fits) (ha : s.ahead = x.tokens ++ rest)
    (hroom : s.ahead.length ≤ s.size) :
    Halts false standIn b s
      ((s.acts (x.moves ⟨b, standIn⟩)).queue ++ [.diagnostic x.diagnostic]) b
      ((s.acts (x.moves ⟨b, standIn⟩)).failed x.diagnostic) := by
  intro more n hn
  have p := x.progress ⟨b, standIn⟩ hx ha hroom
  have he : Ends false standIn b (s.extend more n) _ false _ :=
    .of_slip x hx (ahead_extend_of_append ha more n) hn.room
  rw [Script.acts_extend p.legal] at he
  exact .last he

theorem crosses_slip (x : Slip) (hx : x.Fits) (ha : s.ahead = x.tokens ++ rest)
    (hroom : s.ahead.length ≤ s.size) (hf : s.finished = false) {body : List Token}
    (stop : LineEnd) (he : x.token :: x.after = body ++ [stop.1])
    (hb : ∀ t ∈ body, t.kind.endsLine = false) :
    Crosses true standIn b s
      ((s.acts (x.moves ⟨b, standIn⟩)).queue ++ .diagnostic x.diagnostic ::
        (s.skipped ⟨b, standIn⟩ x body stop).queue) b
      (s.skipped ⟨b, standIn⟩ x body stop).flushed := by
  intro more n hn
  have p := x.progress ⟨b, standIn⟩ hx ha hroom
  have q := x.progress_skip ⟨b, standIn⟩ hx ha hroom stop he hb
  -- what is behind is left alone by the moves of the slip, and by those that skip it
  have hk : (s.extend more n).skipped ⟨b, standIn⟩ x body stop =
      (s.skipped ⟨b, standIn⟩ x body stop).extend more n := by
    rw [Script.skipped, Script.acts_extend p.legal]
    show { (((s.acts (x.moves ⟨b, standIn⟩)).failed x.diagnostic).extend more n).acts _ with
      halted := false } = _
    rw [Script.acts_extend q.legal]
    rfl
  refine ⟨hn.of_ahead (t := (s.skipped ⟨b, standIn⟩ x body stop).flushed) ?_,
    fun os' c' b'' u h => ?_⟩
  · have h₁ := p.length_ahead
    have h₂ := q.length_ahead
    change (s.acts (x.moves ⟨b, standIn⟩)).ahead.length =
      _ + (s.skipped ⟨b, standIn⟩ x body stop).ahead.length at h₂
    show (s.skipped ⟨b, standIn⟩ x body stop).ahead.length ≤ _
    omega
  · have hp : Passes true standIn b (s.extend more n) _ b _ :=
      .of_slip x hx (ahead_extend_of_append ha more n) hn.room hf stop he hb
    rw [hk, Script.acts_extend p.legal] at hp
    exact .pass hp h

theorem Grammar.Line.exists_result (scope : Scope) (l : Line)
    (h : ∀ t ∈ l.tokens, t.kind ≠ .endOfInput) : ∃ b, l.result scope = some b := by
  cases l with
  | full content stop => exact ⟨_, rfl⟩
  | blank stop =>
    rcases stop.kind_eq with hk | hk
    · exact ⟨_, if_pos hk⟩
    · exact absurd hk (h stop.1 (by simp [Line.tokens]))

/-- A run on whole lines gets behind them, unless it may not keep going and halts. -/
theorem Whole.crosses_or_halts (c : Bool) (standIn : Span → Number) (b : Bindings) (h : Whole s)
    (hr : s.Ready) :
    (∃ os b' t, Crosses c standIn b s os b' t ∧ t.Ready ∧ t.lookahead = [] ∧ t.unread = []) ∨
    c = false ∧ ∃ os b' t, Halts c standIn b s os b' t := by
  induction hn : s.ahead.length using Nat.strongRecOn generalizing s b with
  | ind n ih =>
    by_cases ha : s.ahead = []
    · exact .inl ⟨[], b, s, .refl c standIn b s, hr, h.eq_nil ha⟩
    · -- it is enough to get behind the first row
      have step : ∀ {os b₁ s₁}, Crosses c standIn b s os b₁ s₁ → Whole s₁ → s₁.Ready →
          s₁.ahead.length < n →
          (∃ os b' t, Crosses c standIn b s os b' t ∧ t.Ready ∧ t.lookahead = [] ∧ t.unread = []) ∨
          c = false ∧ ∃ os b' t, Halts c standIn b s os b' t := by
        intro os b₁ s₁ hc hw hr₁ hl
        rcases ih s₁.ahead.length hl b₁ hw hr₁ rfl with
          ⟨os', b', t, h', ht⟩ | ⟨hf, os', b', t, h'⟩
        · exact .inl ⟨_, b', t, hc.trans h', ht⟩
        · exact .inr ⟨hf, _, b', t, hc.halts h'⟩
      obtain ⟨row, rest, ha, hrow⟩ := h.exists_row ha
      have hm : ∀ t ∈ row, t ∈ s.ahead := fun t ht => ha ▸ List.mem_append_left _ ht
      rcases exists_line_or_slip hrow fun t ht => h.wellFormed t (hm t ht) with
        ⟨l, hl, rfl⟩ | ⟨x, hx, rfl⟩
      · obtain ⟨b₁, hb⟩ := l.exists_result ⟨b, standIn⟩ fun t ht => h.inside t (hm t ht)
        have p := l.progress ⟨b, standIn⟩ hl ha h.room
        have hlt := p.length_ahead_lt hb
        refine step (crosses_line c l hl ha h.room hb) (h.progress p).flushed
          ⟨rfl, p.failure.trans hr.failure, p.halted.trans hr.halted, p.finished.trans hr.finished⟩ ?_
        show (s.acts (l.moves ⟨b, standIn⟩)).ahead.length < n
        omega
      · cases c with
        | false => exact .inr ⟨rfl, _, _, _, halts_slip x hx ha h.room⟩
        | true =>
          obtain ⟨body, stop, he, hstop, hb⟩ :=
            (x.tokens_eq ▸ hrow).of_append (List.cons_ne_nil _ _)
          have p := x.progress ⟨b, standIn⟩ hx ha h.room
          have q := x.progress_skip ⟨b, standIn⟩ hx ha h.room ⟨stop, hstop⟩ he hb
          have hw := ((h.progress p).failed x.diagnostic).progress q
          refine step (crosses_slip x hx ha h.room hr.finished ⟨stop, hstop⟩ he hb)
            ⟨hw.newLine, hw.token, hw.wellFormed, hw.inside, hw.lexical, hw.room⟩
            ⟨rfl, q.failure, rfl, q.finished.trans (p.finished.trans hr.finished)⟩ ?_
          have hlt := x.length_ahead_skipped_lt ⟨b, standIn⟩ hx ha h.room ⟨stop, hstop⟩ he hb
          show (s.skipped ⟨b, standIn⟩ x body ⟨stop, hstop⟩).ahead.length < n
          omega

end LineCalc
