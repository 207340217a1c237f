import LineCalc.Proofs.Requests.Contract
import LineCalc.Proofs.Requests.FatalLines
import LineCalc.Proofs.Session.Likeness

/-!
# The course of a run

All that a run can do with a row: it passes a line, skips a slip, finds the end of the input, or
stops at a slip. `Passes.row_cases` and `Ends.row_cases` say so, and what is true of whole runs is
proved from them, row by row. What comes out of a run is determined by where it starts
(`Runs.unique`), and every text has a run (`Session.exists_run_eq`).

While a row is read only notices are put out. The verdict on a line, or the fatal diagnostic of a
slip, comes behind them, and a slip that is skipped may be followed by lexical diagnostics.
-/

namespace LineCalc

open Grammar Move

variable {standIn : Span → Number} {b b₁ b₂ b' : Bindings} {s t t₁ t₂ : Script}
variable {c c' c₁ c₂ : Bool} {os os₁ os₂ : List Output} {row rest : List Token}

/-- All that passing a row can be: a line is passed, or a slip is skipped up to the end of its row. -/
theorem Passes.row_cases (h : Passes c standIn b s os b' t) (hs : s.Sound) (hf : s.finished = false)
    (ha : s.ahead = row ++ rest) (hrow : IsRow row) :
    (∃ l : Line, l.height ≤ maxNesting ∧ l.tokens = row ∧ l.result ⟨b, standIn⟩ = some b' ∧
      os = (s.acts (l.moves ⟨b, standIn⟩)).queue ∧ t = (s.acts (l.moves ⟨b, standIn⟩)).flushed) ∨
    c = true ∧ b' = b ∧ ∃ x : Slip, ∃ body, ∃ stop : LineEnd, x.Fits ∧ x.tokens = row ∧
      x.token :: x.after = body ++ [stop.1] ∧ (∀ k ∈ body, k.kind.endsLine = false) ∧
      os = (s.acts (x.moves ⟨b, standIn⟩)).queue ++ .diagnostic x.diagnostic ::
        (s.skipped ⟨b, standIn⟩ x body stop).queue ∧
      t = (s.skipped ⟨b, standIn⟩ x body stop).flushed := by
  rcases hs.statement_cases ⟨b, standIn⟩ ha hrow with
    ⟨l, hl, hlt, u, hu, p, -⟩ | ⟨x, hx, rfl, u, hu, p⟩
  · left
    cases h with
    | skip hk he hr => cases hu.symm.trans (Work.statement_error.mp he)
    | line he =>
      obtain ⟨hres, rfl⟩ := EStateM.Result.ok.inj (hu.symm.trans (Work.statement_more.mp he))
      obtain rfl := p.acts
      exact ⟨l, hl, hlt, hres, rfl, rfl⟩
  · right
    cases h with
    | line he => cases hu.symm.trans (Work.statement_more.mp he)
    | @skip d v w hk he hr =>
      obtain ⟨hd, rfl⟩ := EStateM.Result.error.inj (hu.symm.trans (Work.statement_error.mp he))
      obtain rfl := Stop.fatal.inj hd
      obtain rfl := p.acts
      obtain ⟨body, stop, hend, hstop, hb⟩ := (x.tokens_eq ▸ hrow).of_append (List.cons_ne_nil _ _)
      have hahead : ((s.acts (x.moves ⟨b, standIn⟩)).failed x.diagnostic).ahead =
          body ++ stop :: rest := by
        have hr : s.ahead = taken (x.moves ⟨b, standIn⟩) ++ (body ++ stop :: rest) := by
          rw [ha, x.tokens_eq, x.taken_moves, hend]
          simp
        exact p.ahead_eq hr
      -- recovering is deterministic, so what it did is what is known of skipping
      obtain ⟨w', hw, q⟩ := Feed.recover_eq
        (s := (s.acts (x.moves ⟨b, standIn⟩)).failed x.diagnostic) (p.room hs.room) rfl
        (p.finished.trans hf) ⟨stop, hstop⟩ hahead hb
      have hskipped : w = s.skipped ⟨b, standIn⟩ x body ⟨stop, hstop⟩ := by
        obtain ⟨-, rfl⟩ := EStateM.Result.ok.inj (hr.symm.trans hw)
        rw [q.acts]
        rfl
      rw [hskipped]
      exact ⟨hk, rfl, x, body, ⟨stop, hstop⟩, hx, rfl, hend, hb, rfl, rfl⟩

/-- All that the end of a run can be: the end of the input, or a slip at which the run stops. -/
theorem Ends.row_cases (h : Ends c standIn b s os c' t) (hs : s.Sound) (ha : s.ahead = row ++ rest)
    (hrow : IsRow row) :
    (c' = true ∧ ∃ l : Line, l.height ≤ maxNesting ∧ l.tokens = row ∧
      l.result ⟨b, standIn⟩ = none ∧ os = (s.acts (l.moves ⟨b, standIn⟩)).queue ∧
      t = (s.acts (l.moves ⟨b, standIn⟩)).finish.flushed) ∨
    c = false ∧ c' = false ∧ ∃ x : Slip, x.Fits ∧ x.tokens = row ∧
      os = (s.acts (x.moves ⟨b, standIn⟩)).queue ++ [.diagnostic x.diagnostic] ∧
      t = (s.acts (x.moves ⟨b, standIn⟩)).failed x.diagnostic := by
  rcases hs.statement_cases ⟨b, standIn⟩ ha hrow with
    ⟨l, hl, hlt, u, hu, p, -⟩ | ⟨x, hx, hxt, u, hu, p⟩
  · left
    cases h with
    | stop hk he => cases hu.symm.trans (Work.statement_error.mp he)
    | done he =>
      obtain ⟨hres, rfl⟩ := EStateM.Result.ok.inj (hu.symm.trans (Work.statement_finished.mp he))
      obtain rfl := p.acts
      exact ⟨rfl, l, hl, hlt, hres, rfl, rfl⟩
  · right
    cases h with
    | done he => cases hu.symm.trans (Work.statement_finished.mp he)
    | stop hk he =>
      obtain ⟨hd, rfl⟩ := EStateM.Result.error.inj (hu.symm.trans (Work.statement_error.mp he))
      obtain rfl := Stop.fatal.inj hd
      obtain rfl := p.acts
      exact ⟨hk, rfl, x, hx, hxt, rfl, rfl⟩

/-! ### One run only -/

theorem Passes.unique (h₁ : Passes c standIn b s os₁ b₁ t₁) (h₂ : Passes c standIn b s os₂ b₂ t₂) :
    os₁ = os₂ ∧ b₁ = b₂ ∧ t₁ = t₂ := by
  cases h₁ with
  | line h₁ =>
    cases h₂ with
    | line h₂ =>
      cases h₁.symm.trans h₂
      exact ⟨rfl, rfl, rfl⟩
    | skip hk h₂ hr => cases h₁.symm.trans h₂
  | skip hk h₁ hr₁ =>
    cases h₂ with
    | line h₂ => cases h₁.symm.trans h₂
    | skip hk h₂ hr₂ =>
      cases h₁.symm.trans h₂
      obtain ⟨-, rfl⟩ := EStateM.Result.ok.inj (hr₁.symm.trans hr₂)
      exact ⟨rfl, rfl, rfl⟩

theorem Ends.unique (h₁ : Ends c standIn b s os₁ c₁ t₁) (h₂ : Ends c standIn b s os₂ c₂ t₂) :
    os₁ = os₂ ∧ c₁ = c₂ ∧ t₁ = t₂ := by
  cases h₁ with
  | done h₁ =>
    cases h₂ with
    | done h₂ =>
      cases h₁.symm.trans h₂
      exact ⟨rfl, rfl, rfl⟩
    | stop hk h₂ => cases h₁.symm.trans h₂
  | stop hk h₁ =>
    cases h₂ with
    | done h₂ => cases h₁.symm.trans h₂
    | stop hk h₂ =>
      cases h₁.symm.trans h₂
      exact ⟨rfl, rfl, rfl⟩

/-- A row is not both passed and the last one. -/
theorem Passes.not_ends (h₁ : Passes c standIn b s os₁ b₁ t₁) :
    ¬Ends c standIn b s os₂ c₂ t₂ := by
  intro h₂
  cases h₁ with
  | line h₁ =>
    cases h₂ with
    | done h₂ => cases h₁.symm.trans h₂
    | stop hk h₂ => cases h₁.symm.trans h₂
  | skip hk h₁ hr =>
    cases h₂ with
    | done h₂ => cases h₁.symm.trans h₂
    | stop hk' h₂ => cases hk.symm.trans hk'

theorem Runs.unique (h₁ : Runs c standIn b s os₁ c₁ b₁ t₁) (h₂ : Runs c standIn b s os₂ c₂ b₂ t₂) :
    os₁ = os₂ ∧ c₁ = c₂ ∧ b₁ = b₂ ∧ t₁ = t₂ := by
  induction h₁ generalizing os₂ with
  | last h₁ =>
    cases h₂ with
    | last h₂ =>
      obtain ⟨rfl, rfl, rfl⟩ := h₁.unique h₂
      exact ⟨rfl, rfl, rfl, rfl⟩
    | pass h₂ _ => exact absurd h₁ h₂.not_ends
  | pass h₁ _ ih =>
    cases h₂ with
    | last h₂ => exact absurd h₂ h₁.not_ends
    | pass h₂ rest₂ =>
      obtain ⟨rfl, rfl, rfl⟩ := h₁.unique h₂
      obtain ⟨rfl, rfl, rfl, rfl⟩ := ih rest₂
      exact ⟨rfl, rfl, rfl, rfl⟩

/-- A run that keeps going is always complete. -/
theorem Runs.completed (h : Runs true standIn b s os c b' t) : c = true := by
  induction h with
  | last h =>
    cases h with
    | done h => rfl
    | stop hk h => cases hk
  | pass h rest ih => exact ih

/-! ### What a row puts out -/

section

variable {scope : Scope} {l : Line} {x : Slip} {body : List Token} {stop : LineEnd}

/-- A line is read, and then the verdict on it is carried out. -/
theorem Grammar.Line.progress_reading (scope : Scope) (l : Line) (hl : l.height ≤ maxNesting)
    (ha : s.ahead = l.tokens ++ rest) (hroom : s.ahead.length ≤ s.size) :
    Progress s (l.reading scope) (s.acts (l.reading scope)) ∧
      (s.acts (l.moves scope)).queue =
        (s.acts (l.reading scope)).queue ++ outputs (l.verdict scope) := by
  have hlegal := (l.progress scope hl ha hroom).legal
  rw [l.moves_eq, allLegal_append] at hlegal
  exact ⟨Script.progress_acts hlegal.1, by rw [l.moves_eq, Script.acts_append, l.queue_acts_verdict]⟩

theorem Grammar.Line.exists_queue (scope : Scope) (hl : l.height ≤ maxNesting) (hs : s.Sound)
    (hr : s.Ready) (ha : s.ahead = l.tokens ++ rest) :
    ∃ new, (s.acts (l.moves scope)).queue = new ++ outputs (l.verdict scope) ∧
      ∀ o ∈ new, o.isNotice = true := by
  obtain ⟨p, hq⟩ := l.progress_reading scope hl ha hs.room
  obtain ⟨new, hnew, hn⟩ := p.exists_queue hs.lexical (l.quiet_reading scope)
  rw [hr.queue, List.nil_append] at hnew
  exact ⟨new, by rw [hq, hnew], hn⟩

/-- A diagnostic in the verdict on a line is one of its faults. -/
theorem Grammar.Line.exists_of_mem_verdict (scope : Scope) (l : Line) {d : Diagnostic}
    (hd : .diagnostic d ∈ outputs (l.verdict scope)) :
    ∃ k stop, l = .full k stop ∧ d ∈ k.faults scope := by
  cases l with
  | blank stop => cases hd
  | full k stop =>
    refine ⟨k, stop, rfl, ?_⟩
    rw [Line.verdict, Content.verdict] at hd
    cases hf : (k.faults scope).head? with
    | some d' =>
      rw [hf] at hd
      obtain rfl : d = d' := by simpa using hd
      exact List.mem_of_head? hf
    | none =>
      rw [hf] at hd
      cases hdeed : k.deed scope <;> simp [hdeed] at hd

theorem Grammar.Line.isArithmetic_of_mem_verdict (scope : Scope) (l : Line) {d : Diagnostic}
    (hd : .diagnostic d ∈ outputs (l.verdict scope)) : d.isArithmetic = true := by
  obtain ⟨k, stop, rfl, hf⟩ := l.exists_of_mem_verdict scope hd
  exact k.isArithmetic_of_mem_faults scope d hf

/-- Nothing that a line puts out is fatal. -/
theorem Grammar.Line.isFatal_of_mem_queue (scope : Scope) (hl : l.height ≤ maxNesting) (hs : s.Sound)
    (hr : s.Ready) (ha : s.ahead = l.tokens ++ rest) {d : Diagnostic}
    (hd : .diagnostic d ∈ (s.acts (l.moves scope)).queue) : d.isFatal = false := by
  obtain ⟨new, hq, hn⟩ := l.exists_queue scope hl hs hr ha
  rw [hq] at hd
  rcases List.mem_append.mp hd with hd | hd
  · exact Diagnostic.isFatal_of_isNotice (hn _ hd)
  · exact Diagnostic.isFatal_of_isArithmetic (l.isArithmetic_of_mem_verdict scope hd)

/-- In front of its fatal diagnostic a slip puts out notices. -/
theorem Grammar.Slip.notices (scope : Scope) (hx : x.Fits) (hs : s.Sound) (hr : s.Ready)
    (ha : s.ahead = x.tokens ++ rest) :
    ∀ o ∈ (s.acts (x.moves scope)).queue, o.isNotice = true := by
  obtain ⟨new, hnew, hn⟩ :=
    (x.progress scope hx ha hs.room).exists_queue hs.lexical (x.quiet_moves scope)
  rwa [hnew, hr.queue, List.nil_append]

/-- What is read while a slip is skipped is put out behind its fatal diagnostic. -/
theorem Grammar.Slip.exists_queue_skipped (scope : Scope) (hx : x.Fits) (hs : s.Sound)
    (ha : s.ahead = x.tokens ++ rest) (he : x.token :: x.after = body ++ [stop.1])
    (hb : ∀ k ∈ body, k.kind.endsLine = false) :
    ∃ read, (s.acts (x.moves scope)).unread = read ++ (s.skipped scope x body stop).unread ∧
      (s.skipped scope x body stop).queue = (Reading.diagnostics read).map .diagnostic ∧
      ∀ o ∈ (s.skipped scope x body stop).queue, o.isLexical = true := by
  have hlexical := ((hs.progress (x.progress scope hx ha hs.room)).failed x.diagnostic).lexical
  obtain ⟨read, hu, hq⟩ := (x.progress_skip scope hx ha hs.room stop he hb).exists_read hlexical
    (Feed.outputs_skipMoves body stop)
  have hqueue : (s.skipped scope x body stop).queue = (Reading.diagnostics read).map .diagnostic :=
    hq
  refine ⟨read, hu, hqueue, fun o ho => ?_⟩
  rw [hqueue] at ho
  obtain ⟨d, hd, rfl⟩ := List.mem_map.mp ho
  obtain ⟨r, hr, hi⟩ := Reading.mem_diagnostics.mp hd
  exact hlexical r (hu ▸ List.mem_append_left _ hr) d hi

end

/-- Only a run that keeps going passes a fatal diagnostic. -/
theorem Passes.keepGoing_of_mem (h : Passes c standIn b s os b' t) (hs : s.Sound) (hr : s.Ready)
    {d : Diagnostic} (hd : .diagnostic d ∈ os) (hf : d.isFatal = true) : c = true := by
  obtain ⟨row, rest, ha, hrow⟩ := hs.exists_row
  rcases h.row_cases hs hr.finished ha hrow with ⟨l, hl, rfl, -, rfl, -⟩ | ⟨hc, -⟩
  · rw [l.isFatal_of_mem_queue ⟨b, standIn⟩ hl hs hr ha hd] at hf
    cases hf
  · exact hc

/-! ### Runs of a text -/

theorem Script.ready_ofText (names : NameGrammar) (source : String) :
    (Script.ofText names source).Ready := ⟨rfl, rfl, rfl, rfl⟩

/-- What a session makes of a text is what the run of the text puts out. -/
theorem Session.run_eq_of_runs {config : Config} {source : String}
    (h : Runs config.keepGoing config.standIn b (.ofText config.names source) os c b' t) :
    Session.run ⟨config, b⟩ source = (Transcript.ofScript t os.toArray c, ⟨config, b'⟩) := by
  have hr : (Script.ofText config.names source).run config b =
      (Transcript.ofScript t os.toArray c, b') := Runs.run_eq h (Script.sound_ofText _ source)
  simp only [Session.run, hr]

theorem Session.exists_run_eq (config : Config) (b : Bindings) (source : String) :
    ∃ os c b' t, Runs config.keepGoing config.standIn b (.ofText config.names source) os c b' t ∧
      Session.run ⟨config, b⟩ source = (Transcript.ofScript t os.toArray c, ⟨config, b'⟩) := by
  obtain ⟨os, c, b', t, h, -⟩ := exists_runs config.keepGoing config.standIn b
    (Script.sound_ofText config.names source) (Script.ready_ofText config.names source)
  exact ⟨os, c, b', t, h, Session.run_eq_of_runs h⟩

/-! ### Texts that are read alike -/

/-- Where the readings of two texts correspond, the scripts do before anything is read. -/
theorem Script.Like.ofText {ℓ : Likeness} {names names' : NameGrammar} {source source' : String}
    (hr : List.Forall₂ ℓ.reading (Reading.ofText names source) (Reading.ofText names' source'))
    (hread : ℓ.readTally {} {}) (heval : ℓ.evalTally {} {}) (hstores : ℓ.stores [] []) :
    (Script.ofText names source).Like ℓ (.ofText names' source') where
  unread := hr
  size := Nat.le_of_eq hr.length_eq
  lookahead := .nil
  queue := .nil
  fault := .none
  failure := .none
  depth := rfl
  halted := rfl
  finished := rfl
  readTally := hread
  evalTally := heval
  stores := hstores

/-- So what a session makes of them is alike. -/
theorem Session.exists_run_like {ℓ : Likeness} {config : Config} {source source' : String}
    (hi : ∀ p p', ℓ.place p p' → config.standIn p' = config.standIn p)
    (h : (Script.ofText config.names source).Like ℓ (.ofText config.names source'))
    (b : Bindings) : ∃ os os' c b' t t',
      Runs config.keepGoing config.standIn b (.ofText config.names source) os c b' t ∧
      Runs config.keepGoing config.standIn b (.ofText config.names source') os' c b' t' ∧
      Session.run ⟨config, b⟩ source = (Transcript.ofScript t os.toArray c, ⟨config, b'⟩) ∧
      Session.run ⟨config, b⟩ source' = (Transcript.ofScript t' os'.toArray c, ⟨config, b'⟩) ∧
      List.Forall₂ (Output.Like ℓ.place) os os' ∧ t.Like ℓ t' := by
  obtain ⟨os, c, b', t, hruns, hrun⟩ := Session.exists_run_eq config b source
  obtain ⟨os', t', hruns', hos, hlike⟩ := hruns.like hi h
  exact ⟨os, os', c, b', t, t', hruns, hruns', hrun, Session.run_eq_of_runs hruns', hos, hlike⟩

end LineCalc
