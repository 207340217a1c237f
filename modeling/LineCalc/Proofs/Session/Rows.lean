import LineCalc.Proofs.Session.Runs

/-!
# What a run makes of a row

A line is passed, or ends the run as the end of the input does. A slip ends the run, or is skipped.
So every sound script has a run. It puts out no more than the lexical diagnostics that are unread
and two outputs for each token, which is why the turns of `Script.run` suffice.
-/

namespace LineCalc

open Grammar Move

variable {config : Config} {standIn : Span → Number} {b b' : Bindings} {s s' t : Script}
variable {m : List Move} {row rest : List Token} {c : Bool}

/-! ### Lines and slips -/

theorem Passes.of_line (c : Bool) (l : Line) (hl : l.height ≤ maxNesting)
    (ha : s.ahead = l.tokens ++ rest) (hroom : s.ahead.length ≤ s.size)
    (hb : l.result ⟨b, standIn⟩ = some b') :
    Passes c standIn b s (s.acts (l.moves ⟨b, standIn⟩)).queue b'
      (s.acts (l.moves ⟨b, standIn⟩)).flushed := by
  obtain ⟨t, ht, p, -⟩ := Eval.yields_statement ⟨b, standIn⟩ l ha hroom hl
  rw [← p.acts]
  exact .line (Work.statement_more.mpr (hb ▸ ht))

theorem Ends.of_line (c : Bool) (l : Line) (hl : l.height ≤ maxNesting)
    (ha : s.ahead = l.tokens ++ rest) (hroom : s.ahead.length ≤ s.size)
    (hb : l.result ⟨b, standIn⟩ = none) :
    Ends c standIn b s (s.acts (l.moves ⟨b, standIn⟩)).queue true
      (s.acts (l.moves ⟨b, standIn⟩)).finish.flushed := by
  obtain ⟨t, ht, p, -⟩ := Eval.yields_statement ⟨b, standIn⟩ l ha hroom hl
  rw [← p.acts]
  exact .done (Work.statement_finished.mpr (hb ▸ ht))

theorem Ends.of_slip (x : Slip) (hx : x.Fits) (ha : s.ahead = x.tokens ++ rest)
    (hroom : s.ahead.length ≤ s.size) :
    Ends false standIn b s
      ((s.acts (x.moves ⟨b, standIn⟩)).queue ++ [.diagnostic x.diagnostic]) false
      ((s.acts (x.moves ⟨b, standIn⟩)).failed x.diagnostic) := by
  obtain ⟨t, ht, p⟩ := Eval.fails_statement ⟨b, standIn⟩ x ha hroom hx
  rw [← p.acts]
  exact .stop rfl (Work.statement_error.mpr ht)

/-- The script behind a slip that was skipped, up to the end of its row. -/
def Script.skipped (s : Script) (scope : Scope) (x : Slip) (body : List Token) (stop : LineEnd) :
    Script :=
  { ((s.acts (x.moves scope)).failed x.diagnostic).acts (Feed.skipMoves body stop) with
    halted := false }

theorem Passes.of_slip (x : Slip) (hx : x.Fits) (ha : s.ahead = x.tokens ++ rest)
    (hroom : s.ahead.length ≤ s.size) (hf : s.finished = false) {body : List Token}
    (stop : LineEnd) (he : x.token :: x.after = body ++ [stop.1])
    (hb : ∀ t ∈ body, t.kind.endsLine = false) :
    Passes true standIn b s
      ((s.acts (x.moves ⟨b, standIn⟩)).queue ++ .diagnostic x.diagnostic ::
        (s.skipped ⟨b, standIn⟩ x body stop).queue) b
      (s.skipped ⟨b, standIn⟩ x body stop).flushed := by
  obtain ⟨t, ht, p⟩ := Eval.fails_statement ⟨b, standIn⟩ x ha hroom hx
  have ht' : (t.failed x.diagnostic).ahead = body ++ stop.1 :: rest := by
    have hr : s.ahead = taken (x.moves ⟨b, standIn⟩) ++ (body ++ stop.1 :: rest) := by
      rw [ha, x.tokens_eq, x.taken_moves, he]
      simp
    exact p.ahead_eq hr
  obtain ⟨u, hu, q⟩ := Feed.recover_eq (s := t.failed x.diagnostic) (p.room hroom) rfl
    (p.finished.trans hf) stop ht' hb
  have hk : s.skipped ⟨b, standIn⟩ x body stop = { u with halted := false } := by
    rw [Script.skipped, ← p.acts, q.acts]
    rfl
  rw [hk, ← p.acts]
  exact .skip rfl (Work.statement_error.mpr ht) hu

/-! ### How much is put out -/

/-- What is put out is what was read of lexical diagnostics, and what the moves put out. -/
theorem Progress.length_queue (p : Progress s m s') (hl : s.Lexical) :
    s'.queue.length + (Reading.diagnostics s'.unread).length =
      s.queue.length + (Reading.diagnostics s.unread).length + (outputs m).length := by
  obtain ⟨read, new, hu, hq, hx, ho⟩ := p.queue hl
  have hn : new.length = (Reading.diagnostics read).length + (outputs m).length := by
    rw [List.length_eq_countP_add_countP Output.isLexical, List.countP_eq_length_filter,
      List.countP_eq_length_filter, hx, List.length_map, ← ho]
    simp
  rw [hq, hu, Reading.diagnostics_append, List.length_append, List.length_append, hn]
  omega

theorem Grammar.Line.progress (scope : Scope) (l : Line) (hl : l.height ≤ maxNesting)
    (ha : s.ahead = l.tokens ++ rest) (hroom : s.ahead.length ≤ s.size) :
    Progress s (l.moves scope) (s.acts (l.moves scope)) := by
  obtain ⟨t, -, p, -⟩ := Eval.yields_statement scope l ha hroom hl
  exact p.acts ▸ p

theorem Grammar.Slip.progress (scope : Scope) (x : Slip) (hx : x.Fits)
    (ha : s.ahead = x.tokens ++ rest) (hroom : s.ahead.length ≤ s.size) :
    Progress s (x.moves scope) (s.acts (x.moves scope)) := by
  obtain ⟨t, -, p⟩ := Eval.fails_statement scope x ha hroom hx
  exact p.acts ▸ p

/-- A slip has two tokens at least. -/
theorem Grammar.Slip.Fits.two_le_length {x : Slip} (hx : x.Fits) : 2 ≤ x.tokens.length := by
  cases x with
  | stray lead g w t d after =>
    obtain ⟨-, -, -, a, b, rest, he, -⟩ := hx
    rw [he]
    simp
  | trailing c t after =>
    obtain ⟨a, toks, ht, -⟩ := c.exists_tokens_eq_cons
    simp only [Slip.tokens, ht, List.length_append, List.length_cons]
    omega

theorem Grammar.Slip.progress_skip (scope : Scope) (x : Slip) (hx : x.Fits)
    (ha : s.ahead = x.tokens ++ rest) (hroom : s.ahead.length ≤ s.size) {body : List Token}
    (stop : LineEnd) (he : x.token :: x.after = body ++ [stop.1])
    (hb : ∀ t ∈ body, t.kind.endsLine = false) :
    Progress ((s.acts (x.moves scope)).failed x.diagnostic) (Feed.skipMoves body stop)
      (((s.acts (x.moves scope)).failed x.diagnostic).acts (Feed.skipMoves body stop)) := by
  have p := x.progress scope hx ha hroom
  have ht : ((s.acts (x.moves scope)).failed x.diagnostic).ahead = body ++ stop.1 :: rest := by
    have hr : s.ahead = taken (x.moves scope) ++ (body ++ stop.1 :: rest) := by
      rw [ha, x.tokens_eq, x.taken_moves, he]
      simp
    exact p.ahead_eq hr
  obtain ⟨u, -, q⟩ := Feed.skipLine_eq stop ht hb (Nat.lt_succ_self body.length)
  exact q.acts ▸ q

theorem Feed.outputs_skipMoves (body : List Token) (stop : LineEnd) :
    outputs (skipMoves body stop) = [] := by
  induction body with
  | nil => simp [skipMoves]
  | cons t body ih => simpa [skipMoves] using ih

/-- Skipping puts out what it reads of lexical diagnostics, and takes the rest of the row. -/
theorem Grammar.Slip.length_skipped (scope : Scope) (x : Slip) (hx : x.Fits) (hl : s.Lexical)
    (ha : s.ahead = x.tokens ++ rest) (hroom : s.ahead.length ≤ s.size) {body : List Token}
    (stop : LineEnd) (he : x.token :: x.after = body ++ [stop.1])
    (hb : ∀ t ∈ body, t.kind.endsLine = false) :
    (s.skipped scope x body stop).queue.length +
        (Reading.diagnostics (s.skipped scope x body stop).unread).length =
      (Reading.diagnostics (s.acts (x.moves scope)).unread).length ∧
    (s.acts (x.moves scope)).ahead.length =
      body.length + (taken stop.moves).length + (s.skipped scope x body stop).ahead.length := by
  have q := x.progress_skip scope hx ha hroom stop he hb
  have hq := q.length_queue ((x.progress scope hx ha hroom).lexical hl)
  have hlen := q.length_ahead
  rw [Feed.outputs_skipMoves] at hq
  rw [Feed.taken_skipMoves, List.length_append] at hlen
  refine ⟨hq.trans ?_, hlen⟩
  show 0 + (Reading.diagnostics (s.acts (x.moves scope)).unread).length + 0 = _
  omega

/-- How much the rows ahead put out at most: the lexical diagnostics that are unread, and two outputs
for each token in front of the end of the input. -/
def Script.budget (s : Script) : Nat :=
  (Reading.diagnostics s.unread).length + 2 * (s.ahead.length - 1)

theorem Grammar.Line.add_budget_le (scope : Scope) (l : Line) (hl : l.height ≤ maxNesting)
    (hs : s.Sound) (hq : s.queue = []) (ha : s.ahead = l.tokens ++ rest) :
    (s.acts (l.moves scope)).queue.length + (s.acts (l.moves scope)).budget ≤ s.budget := by
  have p := l.progress scope hl ha hs.room
  have hqueue := p.length_queue hs.lexical
  have ho := l.length_outputs_moves scope
  have hlen := p.length_ahead
  have hpos := (hs.progress p).length_ahead_pos
  rw [hq, List.length_nil] at hqueue
  unfold Script.budget
  omega

/-- So is what a slip puts out, with its fatal diagnostic. If no token stands in front of the one that
does not fit, those behind it pay. -/
theorem Grammar.Slip.add_budget_le (scope : Scope) (x : Slip) (hx : x.Fits) (hs : s.Sound)
    (hq : s.queue = []) (ha : s.ahead = x.tokens ++ rest) :
    (s.acts (x.moves scope)).queue.length + 1 + (s.acts (x.moves scope)).budget ≤
        s.budget + 2 * x.after.length ∧
      x.after.length < (s.acts (x.moves scope)).ahead.length := by
  have p := x.progress scope hx ha hs.room
  have hqueue := p.length_queue hs.lexical
  have ho := x.length_outputs_moves scope
  have hlen := p.length_ahead
  have htwo := hx.two_le_length
  have hal := congrArg List.length ha
  rw [hq, List.length_nil] at hqueue
  rw [x.taken_moves] at hlen
  rw [List.length_append, x.tokens_eq] at hal
  rw [x.tokens_eq] at htwo
  simp only [List.length_append, List.length_cons] at hal htwo
  unfold Script.budget
  omega

theorem Grammar.Slip.add_budget_skipped_le (scope : Scope) (x : Slip) (hx : x.Fits) (hs : s.Sound)
    (ha : s.ahead = x.tokens ++ rest) {body : List Token} (stop : LineEnd)
    (he : x.token :: x.after = body ++ [stop.1]) (hb : ∀ t ∈ body, t.kind.endsLine = false)
    (hpos : 0 < (s.skipped scope x body stop).ahead.length) :
    (s.skipped scope x body stop).queue.length + (s.skipped scope x body stop).budget +
        2 * x.after.length ≤ (s.acts (x.moves scope)).budget := by
  obtain ⟨hq, hlen⟩ := x.length_skipped scope hx hs.lexical ha hs.room stop he hb
  have hbody := congrArg List.length he
  simp only [List.length_append, List.length_cons, List.length_nil] at hbody
  unfold Script.budget
  omega

theorem Grammar.Slip.length_ahead_skipped_lt (scope : Scope) (x : Slip) (hx : x.Fits)
    (ha : s.ahead = x.tokens ++ rest) (hroom : s.ahead.length ≤ s.size) {body : List Token}
    (stop : LineEnd) (he : x.token :: x.after = body ++ [stop.1])
    (hb : ∀ t ∈ body, t.kind.endsLine = false) :
    (s.skipped scope x body stop).ahead.length < s.ahead.length := by
  have hlen := (x.progress scope hx ha hroom).length_ahead
  have hskip : (s.acts (x.moves scope)).ahead.length =
      _ + (s.skipped scope x body stop).ahead.length :=
    (x.progress_skip scope hx ha hroom stop he hb).length_ahead
  have htwo := hx.two_le_length
  rw [x.taken_moves] at hlen
  rw [Feed.taken_skipMoves, List.length_append] at hskip
  rw [x.tokens_eq, he] at htwo
  simp only [List.length_append, List.length_cons, List.length_nil] at htwo
  omega

/-- A sound script has a run, and it keeps to its budget. -/
theorem exists_runs (c : Bool) (standIn : Span → Number) (b : Bindings) (hs : s.Sound)
    (hr : s.Ready) : ∃ os c' b' t, Runs c standIn b s os c' b' t ∧ os.length ≤ s.budget := by
  -- on the tokens ahead: each row takes at least one, and pays for what it puts out
  induction hn : s.ahead.length using Nat.strongRecOn generalizing s b with
  | ind n ih =>
    obtain ⟨row, rest, ha, hrow⟩ := hs.exists_row
    rcases exists_line_or_slip hrow (hs.wellFormed_of_mem_row ha) with
      ⟨l, hl, rfl⟩ | ⟨x, hx, rfl⟩
    · have hline := l.add_budget_le ⟨b, standIn⟩ hl hs hr.queue ha
      cases hb : l.result ⟨b, standIn⟩ with
      | none => exact ⟨_, _, _, _, .last (.of_line c l hl ha hs.room hb), by omega⟩
      | some b' =>
        have h := Passes.of_line c l hl ha hs.room hb
        obtain ⟨hs', hr'⟩ := h.ready hs hr
        have hlt := (l.progress ⟨b, standIn⟩ hl ha hs.room).length_ahead_lt hb
        obtain ⟨os, c', b'', t, hruns, hos⟩ := ih (s.acts (l.moves ⟨b, standIn⟩)).ahead.length
          (by omega) b' hs' hr' rfl
        refine ⟨_, _, _, _, .pass h hruns, ?_⟩
        change os.length ≤ (s.acts (l.moves ⟨b, standIn⟩)).budget at hos
        rw [List.length_append]
        omega
    · obtain ⟨hslip, hafter⟩ := x.add_budget_le ⟨b, standIn⟩ hx hs hr.queue ha
      cases c with
      | false =>
        refine ⟨_, _, _, _, .last (.of_slip x hx ha hs.room), ?_⟩
        unfold Script.budget at hslip ⊢
        rw [List.length_append, List.length_singleton]
        omega
      | true =>
        obtain ⟨body, stop, he, hstop, hb⟩ := (x.tokens_eq ▸ hrow).of_append (List.cons_ne_nil _ _)
        have h : Passes true standIn b s _ b _ :=
          .of_slip x hx ha hs.room hr.finished ⟨stop, hstop⟩ he hb
        obtain ⟨hs', hr'⟩ := h.ready hs hr
        have hskip := x.add_budget_skipped_le ⟨b, standIn⟩ hx hs ha ⟨stop, hstop⟩ he hb
          hs'.length_ahead_pos
        have hlt := x.length_ahead_skipped_lt ⟨b, standIn⟩ hx ha hs.room ⟨stop, hstop⟩ he hb
        obtain ⟨os, c', b'', t, hruns, hos⟩ := ih
          (s.skipped ⟨b, standIn⟩ x body ⟨stop, hstop⟩).ahead.length (by omega) b hs' hr' rfl
        refine ⟨_, _, _, _, .pass h hruns, ?_⟩
        change os.length ≤ (s.skipped ⟨b, standIn⟩ x body ⟨stop, hstop⟩).budget at hos
        simp only [List.length_append, List.length_cons]
        omega

/-- The readings of a text are its tokens and its lexical diagnostics. -/
theorem Reading.length_diagnostics_add (rs : List Reading) :
    (diagnostics rs).length + (tokens rs).length = rs.length := by
  induction rs with
  | nil => rfl
  | cons r rs ih =>
    obtain ⟨chunks, item⟩ := r
    cases item with
    | ok t =>
      show (diagnostics rs).length + ((tokens rs).length + 1) = rs.length + 1
      omega
    | error d =>
      show (diagnostics rs).length + 1 + (tokens rs).length = rs.length + 1
      omega

/-- A script needs no more turns than `Script.run` has. -/
theorem Script.budget_ofReadings_le (rs : List Reading) : (ofReadings rs).budget ≤ 2 * rs.length := by
  have hlen := Reading.length_diagnostics_add rs
  show (Reading.diagnostics rs).length + 2 * ((Reading.tokens rs).length - 1) ≤ _
  omega

/-- `Script.run` gives what the run of the script puts out: its turns suffice. -/
theorem Runs.run_eq {rs : List Reading} {os : List Output}
    (h : Runs config.keepGoing config.standIn b (.ofReadings rs) os c b' t)
    (hs : (Script.ofReadings rs).Sound) :
    (Script.ofReadings rs).run config b = (Transcript.ofScript t os.toArray c, b') := by
  have hr : (Script.ofReadings rs).Ready := ⟨rfl, rfl, rfl, rfl⟩
  obtain ⟨os₁, c₁, b₁, t₁, h₁, hl⟩ := exists_runs config.keepGoing config.standIn b hs hr
  have hbudget := Script.budget_ofReadings_le rs
  have hz : (Script.ofReadings rs).size = rs.length := rfl
  -- with turns enough for both, the two runs are one
  have he := (h₁.drain_eq hs hr (show os₁.length < os.length + os₁.length + 1 by omega) #[]).symm
  rw [h.drain_eq hs hr (by omega)] at he
  rw [Script.run, h₁.drain_eq hs hr (by omega), he]
  simp

end LineCalc
