import LineCalc.Proofs.Transcript.Accounts

/-!
# The totals of a run

No token and no diagnostic is lost, and none is there twice. The tokens that a run takes are the first
ones of its text, and all of them if the run reaches the end. What it reads is what a reader reads
that is asked as often, and the lexical diagnostics come out in the order in which they were read.
Every count of a transcript can be told from the text, the outputs and the log.
-/

namespace LineCalc

open Grammar Move

variable {standIn : Span → Number} {b b' : Bindings} {s t u : Script}
variable {c c' : Bool} {os os' : List Output} {toks toks' row rest : List Token}

/-! ### Rows -/

theorem Script.Sound.atEnd {stop : Token} (hs : s.Sound) (ha : s.ahead = stop :: rest)
    (hk : stop.kind = .endOfInput) : s.AtEnd := by
  obtain ⟨before, last, he, -, hb⟩ := hs.ends
  cases before with
  | nil => exact ⟨last, he⟩
  | cons k before =>
    obtain ⟨rfl, -⟩ := List.cons.inj (ha.symm.trans he)
    exact absurd hk (hb stop List.mem_cons_self)

/-- Where only the end of the input is left, nothing more is taken. -/
theorem Accounts.eq_nil (h : Accounts s toks os t) (hs : s.Sound) (hend : s.AtEnd) : toks = [] := by
  obtain ⟨stop, ha⟩ := hend
  have hk : stop.kind = .endOfInput := by
    obtain ⟨before, last, he, hk, -⟩ := hs.ends
    have he : [] ++ [stop] = before ++ [last] := ha.symm.trans he
    obtain ⟨-, hl⟩ := List.append_inj' he rfl
    rw [List.singleton_inj.mp hl]
    exact hk
  cases toks with
  | nil => rfl
  | cons k toks =>
    obtain ⟨rfl, -⟩ := List.cons.inj (ha.symm.trans h.ahead)
    exact absurd hk (h.inner stop List.mem_cons_self)

/-- How taking some tokens ended: with a line break, or in front of the end of the input. -/
def EndsRow (toks : List Token) (t : Script) : Prop :=
  (∃ body stop, toks = body ++ [stop] ∧ stop.kind = .newLine) ∨ t.AtEnd

theorem endsRow_of_ahead {body : List Token} {stop : LineEnd}
    (ha : s.ahead = body ++ stop.1 :: rest) (ht : t.Sound)
    (h : Accounts s (body ++ taken stop.moves) os t) : EndsRow (body ++ taken stop.moves) t := by
  rcases stop.kind_eq with hk | hk
  · left
    exact ⟨body, stop.1, by rw [LineEnd.taken_moves_of_newLine hk], hk⟩
  · right
    have hahead := h.ahead
    rw [ha, LineEnd.taken_moves_of_endOfInput hk, List.append_nil] at hahead
    exact ht.atEnd (List.append_cancel_left hahead).symm hk

theorem Passes.accounts (h : Passes c standIn b s os b' t) (hs : s.Sound) (hr : s.Ready)
    (htidy : Tidy s.ahead) : ∃ toks, Accounts s toks os t ∧
      Balanced s os (commentLines true toks) t ∧ EndsRow toks t := by
  obtain ⟨ht, -⟩ := h.ready hs hr
  obtain ⟨row, rest, ha, hrow⟩ := hs.exists_row
  rcases h.row_cases hs hr.finished ha hrow with
    ⟨l, hl, rfl, -, rfl, rfl⟩ | ⟨-, -, x, body, stop, hx, rfl, he, hb, rfl, rfl⟩
  · obtain ⟨haccounts, hbalanced⟩ := l.accounts ⟨b, standIn⟩ hl hs hr ha
    refine ⟨l.takes, haccounts, hbalanced, ?_⟩
    rw [l.takes_eq_body] at haccounts ⊢
    rw [l.tokens_eq_body, List.append_assoc] at ha
    exact endsRow_of_ahead ha ht haccounts
  · obtain ⟨haccounts, hbalanced⟩ := x.accounts ⟨b, standIn⟩ hx hs hr ha
    obtain ⟨haccounts', hbalanced'⟩ := x.accounts_skip ⟨b, standIn⟩ hx hs ha he hb
    have hwhole := haccounts.trans haccounts'
    have htokens : x.tokens = (x.before ++ body) ++ [stop.1] := by
      rw [x.tokens_eq, he, List.append_assoc]
    have hin : ∀ k ∈ x.before ++ body, k.kind.endsLine = false := by
      rw [htokens] at hrow
      exact hrow.body_inside
    -- no comment stands alone on the row of a slip
    have hcomments : commentLines true ((x.before ++ body) ++ taken stop.moves) = 0 :=
      hx.commentLines_eq_zero (ha ▸ htidy) htokens hin stop.kind_ne_comment_of_mem
    rw [← List.append_assoc] at hwhole
    refine ⟨(x.before ++ body) ++ taken stop.moves, by simpa using hwhole, ?_, ?_⟩
    · rw [hcomments]
      simpa using hbalanced.trans hbalanced'
    · rw [htokens, List.append_assoc] at ha
      exact endsRow_of_ahead ha ht hwhole

/-- The run found the end of the input: it was complete, or what does not fit is just that. -/
def FindsEnd (os : List Output) (completed : Bool) : Prop :=
  completed = true ∨ ∃ place, .diagnostic ⟨.unexpected .endOfInput, place⟩ ∈ os

/-- A line without a result is the end of the input, and all that is done is to look at it. -/
theorem Grammar.Line.moves_of_result {scope : Scope} {l : Line} (h : l.result scope = none) :
    l.moves scope = [.clear, .look 0] := by
  have hk := Line.kind_stop_of_result h
  cases l with
  | full c stop => cases h
  | blank stop =>
    have hk : stop.1.kind = .endOfInput := hk
    rw [moves, LineEnd.moves_of_endOfInput hk]

theorem Ends.accounts (h : Ends c standIn b s os c' t) (hs : s.Sound) (hr : s.Ready)
    (htidy : Tidy s.ahead) : ∃ toks, Accounts s toks os t ∧
      Balanced s os (commentLines true toks) t ∧ (FindsEnd os c' → t.AtEnd ∧ t.lookahead ≠ []) := by
  obtain ⟨row, rest, ha, hrow⟩ := hs.exists_row
  rcases h.row_cases hs ha hrow with
    ⟨-, l, hl, rfl, hresult, rfl, rfl⟩ | ⟨-, rfl, x, hx, rfl, rfl, rfl⟩
  · obtain ⟨haccounts, hbalanced⟩ := l.accounts ⟨b, standIn⟩ hl hs hr ha
    have hsound := hs.progress (l.progress ⟨b, standIn⟩ hl ha hs.room)
    have hk := Line.kind_stop_of_result hresult
    refine ⟨l.takes, { haccounts with }, hbalanced, fun _ => ⟨?_, ?_⟩⟩
    · have hahead := haccounts.ahead
      rw [ha, l.tokens_eq_body, l.takes_eq_body, List.append_assoc, List.append_assoc,
        LineEnd.taken_moves_of_endOfInput hk] at hahead
      exact hsound.atEnd (List.append_cancel_left hahead).symm hk
    · rw [Line.moves_of_result hresult]
      exact Script.act_look_lookahead_ne_nil
        (hs.progress (Script.progress_clear s)).length_ahead_pos
  · obtain ⟨haccounts, hbalanced⟩ := x.accounts ⟨b, standIn⟩ hx hs hr ha
    have hin : ∀ k ∈ x.before, k.kind.endsLine = false := by
      obtain ⟨body, stop, he, hstop, hb⟩ := (x.tokens_eq ▸ hrow).of_append (List.cons_ne_nil _ _)
      let stop : LineEnd := ⟨stop, hstop⟩
      have hrow' : IsRow ((x.before ++ body) ++ [stop.1]) := by
        rw [List.append_assoc, ← he, ← x.tokens_eq]
        exact hrow
      exact fun k hk => hrow'.body_inside k (List.mem_append_left _ hk)
    have hcomments : commentLines true (x.before ++ []) = 0 :=
      hx.commentLines_eq_zero (ha ▸ htidy) x.tokens_eq hin (by simp)
    rw [List.append_nil] at hcomments
    refine ⟨x.before, haccounts, hcomments.symm ▸ hbalanced, fun hfinds => ?_⟩
    have hnotices := x.notices ⟨b, standIn⟩ hx hs hr ha
    have hsound := hs.progress (x.progress ⟨b, standIn⟩ hx ha hs.room)
    -- of all that a slip puts out only its fatal diagnostic can tell of the end of the input
    obtain ⟨place, hplace⟩ := hfinds.resolve_left (by simp)
    have hd : x.diagnostic = ⟨.unexpected .endOfInput, place⟩ := by
      rcases List.mem_append.mp hplace with hmem | hmem
      · cases hnotices _ hmem
      · exact (Output.diagnostic.inj (List.mem_singleton.mp hmem)).symm
    have hahead := haccounts.ahead
    rw [ha, x.tokens_eq, List.append_assoc] at hahead
    exact ⟨hsound.atEnd (List.append_cancel_left hahead).symm (Slip.Fits.kind_of_diagnostic hx hd),
      x.lookahead_ne_nil ⟨b, standIn⟩ hx hs ha⟩

/-! ### Runs -/

theorem Runs.accounts (h : Runs c standIn b s os c' b' t) (hs : s.Sound) (hr : s.Ready)
    (htidy : Tidy s.ahead) : ∃ toks, Accounts s toks os t ∧
      Balanced s os (commentLines true toks) t ∧ (FindsEnd os c' → t.AtEnd ∧ t.lookahead ≠ []) := by
  induction h with
  | last h => exact h.accounts hs hr htidy
  | @pass b b₁ b' s s₁ t os os' c' h rest ih =>
    obtain ⟨hs₁, hr₁⟩ := h.ready hs hr
    obtain ⟨toks, haccounts, hbalanced, hends⟩ := h.accounts hs hr htidy
    rw [haccounts.ahead] at htidy
    obtain ⟨toks', haccounts', hbalanced', hend⟩ := ih hs₁ hr₁ htidy.of_append
    refine ⟨toks ++ toks', haccounts.trans haccounts', ?_, ?_⟩
    · have hcomments : commentLines true (toks ++ toks') =
          commentLines true toks + commentLines true toks' := by
        rcases hends with ⟨body, stop, rfl, hstop⟩ | hends
        · exact commentLines_append hstop
        · rw [haccounts'.eq_nil hs₁ hends, List.append_nil]
          rfl
      rw [hcomments]
      exact hbalanced.trans hbalanced'
    · intro hfinds
      apply hend
      rcases hfinds with hc | ⟨place, hplace⟩
      · exact .inl hc
      · rcases List.mem_append.mp hplace with hmem | hmem
        · -- a run that passes a fatal diagnostic keeps going, and completes
          obtain rfl := h.keepGoing_of_mem hs hr hmem rfl
          exact .inl rest.completed
        · exact .inr ⟨place, hmem⟩

/-! ### Reading alone -/

/-- What a reader has counted is what its readings add up to. -/
theorem Reader.tally_after (names : NameGrammar) (n : Nat) (r : Reader) :
    (after names n r).tally =
      ((r.readings names).take n).foldl (fun sum x => sum + x.tally) r.tally := by
  induction n generalizing r with
  | zero => rfl
  | succ n ih =>
    rw [after, ih, readings_next names r]
    by_cases he : r.ended = true
    · simp [next, readings, he]
    · simp [next, he, tally_read]

/-- Errors are counted for the diagnostics that are read. -/
theorem Reading.length_diagnostics (rs : List Reading) :
    (diagnostics rs).length = rs.countP isError := by
  induction rs with
  | nil => rfl
  | cons r rs ih =>
    obtain ⟨chunks, item⟩ := r
    cases item with
    | ok t => exact ih
    | error d =>
      rw [List.countP_cons, ← ih]
      rfl

theorem Reader.errors_after (names : NameGrammar) (source : String) (n : Nat) :
    (after names n (ofText source)).tally.errors =
      (Reading.diagnostics ((Reading.ofText names source).take n)).length := by
  rw [(took_after names n (took_ofText source)).tally, Reading.length_diagnostics, readings_ofText]
  rfl

/-! ### The transcript -/

/-- The tokens of a text, without the end of the input. -/
def Reading.sourceTokens (names : NameGrammar) (source : String) : List Token :=
  (tokens (ofText names source)).filter (·.kind ≠ .endOfInput)

/-- What the counts and the log of a transcript say of the text that was run, and of the outputs. -/
structure Transcript.Accounted (names : NameGrammar) (source : String) (t : Transcript) : Prop where
  /-- The tokens that were taken are the first ones of the text, in their order. -/
  taken : t.log.filterMap Event.taken? =
    ((Reading.sourceTokens names source).take t.evalTally.tokens).map Token.entry
  tokens_le : t.evalTally.tokens ≤ (Reading.sourceTokens names source).length
  /-- A run that finds the end of the input has taken all the tokens, and counts what is counted when
  the text is read alone, however often a reader is asked. -/
  whole : FindsEnd t.outputs t.completed →
    t.evalTally.tokens = (Reading.sourceTokens names source).length ∧
    ∀ n ≥ (Reading.ofText names source).length,
      t.readTally = (Reader.after names n (Reader.ofText source)).tally
  /-- In any case a reader that is asked often enough counts the same, and the lexical diagnostics are
  those that it reads, in their order. -/
  read : ∃ n, t.readTally = (Reader.after names n (Reader.ofText source)).tally ∧
    t.diagnostics.filter Diagnostic.isLexical =
      Reading.diagnostics ((Reading.ofText names source).take n)
  errors : t.readTally.errors = (t.diagnostics.filter Diagnostic.isLexical).length
  diagnostics : t.evalTally.diagnostics = t.diagnostics.countP (!·.isFatal)
  /-- Each statement has a value, a diagnostic or an assignment to show for it, or is a line with
  nothing but a comment. -/
  statements : t.evalTally.statements = t.values.length +
    t.diagnostics.countP Diagnostic.isArithmetic + t.diagnostics.countP Diagnostic.isFatal +
    (t.log.filterMap Event.stored?).length +
    commentLines true ((Reading.sourceTokens names source).take t.evalTally.tokens)

/-- The lexical diagnostics among outputs. -/
theorem filter_diagnostics (os : List Output) :
    (os.filterMap Output.diagnostic?).filter Diagnostic.isLexical =
      (os.filter Output.isLexical).filterMap Output.diagnostic? := by
  induction os with
  | nil => rfl
  | cons o os ih =>
    cases o with
    | value v => exact ih
    | diagnostic d =>
      by_cases hd : d.isLexical = true
      · simp [Output.diagnostic?, Output.isLexical, hd, ih]
      · simp [Output.diagnostic?, Output.isLexical, hd, ih]

theorem countP_isMild (os : List Output) :
    os.countP Output.isMild = (os.filterMap Output.diagnostic?).countP (!·.isFatal) := by
  induction os with
  | nil => rfl
  | cons o os ih =>
    cases o with
    | value v => exact ih
    | diagnostic d => simp [Output.diagnostic?, Output.isMild, List.countP_cons, ih]

/-- What is no notice is a value, or tells of an operation without one, or is fatal. -/
theorem countP_not_isNotice (os : List Output) : os.countP (!·.isNotice) =
    (os.filterMap Output.value?).length +
      (os.filterMap Output.diagnostic?).countP Diagnostic.isArithmetic +
      (os.filterMap Output.diagnostic?).countP Diagnostic.isFatal := by
  induction os with
  | nil => rfl
  | cons o os ih =>
    rw [List.countP_cons, ih]
    cases o with
    | value v =>
      simp only [List.filterMap_cons, Output.value?, Output.diagnostic?, List.length_cons,
        Output.isNotice]
      simp
      omega
    | diagnostic d =>
      obtain ⟨problem, span⟩ := d
      simp only [List.filterMap_cons, Output.value?, Output.diagnostic?, List.countP_cons,
        Output.isNotice]
      cases problem <;>
        simp [Diagnostic.isNotice, Diagnostic.isArithmetic, Diagnostic.isFatal, Problem.isFatal] <;>
        omega

/-- What a view of the log sees in a transcript. -/
theorem Transcript.filterMap_log {α : Type} {view : Event → Option α} (hv : Event.Inner view)
    (t : Script) (os : Array Output) (c : Bool) :
    (ofScript t os c).log.filterMap view = t.noted view := by
  show (_ :: t.log).reverse.filterMap view = _
  rw [List.reverse_cons, List.filterMap_append, List.filterMap_cons, hv.summary]
  exact List.append_nil _

namespace Accounts

variable {names : NameGrammar} {source : String}

/-- The tokens of a text are those taken, and those left. -/
theorem sourceTokens_eq (h : Accounts (.ofText names source) toks os t) :
    Reading.sourceTokens names source = toks ++ t.ahead.filter (·.kind ≠ .endOfInput) := by
  have hahead : Reading.tokens (Reading.ofText names source) = toks ++ t.ahead := h.ahead
  have hinner : toks.filter (·.kind ≠ .endOfInput) = toks := by
    rw [List.filter_eq_self]
    intro k hk
    simpa using h.inner k hk
  rw [Reading.sourceTokens, hahead, List.filter_append, hinner]

theorem take_sourceTokens (h : Accounts (.ofText names source) toks os t) :
    (Reading.sourceTokens names source).take t.evalTally.tokens = toks := by
  have htokens : t.evalTally.tokens = toks.length := h.tokens.trans (Nat.zero_add _)
  rw [h.sourceTokens_eq, htokens]
  exact List.take_left

/-- When the end of the input was looked at, everything was read, and everything else taken. -/
theorem eq_nil_of_atEnd (h : Accounts (.ofText names source) toks os t) (hend : t.AtEnd)
    (hl : t.lookahead ≠ []) : t.unread = [] ∧ t.ahead.filter (·.kind ≠ .endOfInput) = [] := by
  obtain ⟨stop, ha⟩ := hend
  obtain ⟨rs, chunks, place, ho, -⟩ := Reading.exists_of_ofText names source
  constructor
  · obtain ⟨a, rest, hla⟩ := List.exists_cons_of_ne_nil hl
    have hnone : Reading.tokens t.unread = [] := by
      rw [Script.ahead, hla] at ha
      exact (List.append_eq_nil_iff.mp (List.cons.inj ha).2).2
    obtain ⟨read, hu, -⟩ := h.read
    exact Reading.eq_nil_of_tokens_eq_nil (hu.symm.trans ho) rfl hnone
  · have hlast : toks ++ [stop] = Reading.tokens rs ++ [Reading.endToken place] := by
      rw [← ha, ← h.ahead]
      show Reading.tokens (Reading.ofText names source) = _
      rw [ho, Reading.tokens_append, Reading.tokens_ok, Reading.tokens_nil]
    obtain ⟨-, hstop⟩ := List.append_inj' hlast rfl
    rw [ha, List.singleton_inj.mp hstop]
    rfl

theorem exists_after (h : Accounts (.ofText names source) toks os t) :
    ∃ read, Reading.ofText names source = read ++ t.unread ∧
      (os.filterMap Output.diagnostic?).filter Diagnostic.isLexical = Reading.diagnostics read ∧
      t.readTally = (Reader.after names read.length (Reader.ofText source)).tally := by
  obtain ⟨read, hu, hl, ht⟩ := h.read
  have hwhole : Reading.ofText names source = read ++ t.unread := hu
  refine ⟨read, hwhole, ?_, ?_⟩
  · rw [filter_diagnostics, hl, List.filterMap_map]
    exact List.filterMap_some
  · rw [ht, Reader.tally_after, Reader.readings_ofText, hwhole, List.take_left]
    rfl

end Accounts

/-- The transcript of a run accounts for it. -/
theorem Runs.accounted {names : NameGrammar} {source : String}
    (h : Runs c standIn b (.ofText names source) os c' b' t) :
    (Transcript.ofScript t os.toArray c').Accounted names source := by
  obtain ⟨toks, haccounts, hbalanced, hend⟩ := h.accounts (Script.sound_ofText names source)
    (Script.ready_ofText names source) (Reading.tidy_ofText names source)
  have htokens : t.evalTally.tokens = toks.length := haccounts.tokens.trans (Nat.zero_add _)
  have hsource := haccounts.sourceTokens_eq
  obtain ⟨read, hread, hlexical, htally⟩ := haccounts.exists_after
  have htake : (Reading.ofText names source).take read.length = read := by
    rw [hread]
    exact List.take_left
  refine ⟨?_, ?_, fun hfinds => ?_, ⟨read.length, htally, ?_⟩, ?_, ?_, ?_⟩
  · rw [Transcript.filterMap_log Event.inner_taken?]
    show _ = ((Reading.sourceTokens names source).take t.evalTally.tokens).map _
    rw [haccounts.take_sourceTokens]
    exact haccounts.shifted
  · show t.evalTally.tokens ≤ _
    rw [hsource, htokens, List.length_append]
    omega
  · obtain ⟨hunread, hinner⟩ := haccounts.eq_nil_of_atEnd (hend hfinds).1 (hend hfinds).2
    rw [hinner, List.append_nil] at hsource
    rw [hunread, List.append_nil] at hread
    refine ⟨by rw [hsource]; exact htokens, fun n hn => ?_⟩
    show t.readTally = _
    rw [htally, Reader.tally_after, Reader.tally_after, Reader.readings_ofText, htake,
      List.take_of_length_le hn, hread]
  · rw [htake]
    exact hlexical
  · show t.readTally.errors = ((os.filterMap Output.diagnostic?).filter _).length
    rw [htally, Reader.errors_after, htake, hlexical]
  · show t.evalTally.diagnostics = (os.filterMap Output.diagnostic?).countP _
    rw [haccounts.diagnostics, countP_isMild]
    exact Nat.zero_add _
  · rw [Transcript.filterMap_log Event.inner_stored?]
    show t.evalTally.statements = (os.filterMap Output.value?).length +
      (os.filterMap Output.diagnostic?).countP _ + (os.filterMap Output.diagnostic?).countP _ + _ +
      commentLines true ((Reading.sourceTokens names source).take t.evalTally.tokens)
    rw [haccounts.take_sourceTokens, ← countP_not_isNotice]
    have hstatements : t.evalTally.statements + 0 =
        0 + (t.noted Event.stored?).length + os.countP (!·.isNotice) + commentLines true toks :=
      hbalanced
    omega

/-- A run has counted what it has read, which is a beginning of the text. -/
theorem Runs.exists_read {names : NameGrammar} {source : String}
    (h : Runs c standIn b (.ofText names source) os c' b' t) :
    ∃ read, Reading.ofText names source = read ++ t.unread ∧ t.readTally = .ofReadings read ∧
      Reading.text read = source.toList.take t.readTally.chars := by
  obtain ⟨toks, haccounts, -⟩ := h.accounts (Script.sound_ofText names source)
    (Script.ready_ofText names source) (Reading.tidy_ofText names source)
  obtain ⟨read, hread, -, htally⟩ := haccounts.exists_after
  have htook := Reader.took_after names read.length (Reader.took_ofText source)
  rw [Reader.readings_ofText, List.nil_append, hread, List.take_left] at htook
  rw [htook.tally] at htally
  refine ⟨read, hread, htally, ?_⟩
  rw [htally, ← htook.whole]
  exact List.take_left.symm

/-- Whatever text a session runs, the transcript accounts for it. What is left ahead of the script are
the tokens that were not taken. -/
theorem Session.run_accounted (session : Session) (source : String) :
    (session.run source).1.Accounted session.config.names source ∧
    ∃ last, Runs session.config.keepGoing session.config.standIn session.bindings
        (.ofText session.config.names source) (session.run source).1.outputs
        (session.run source).1.completed (session.run source).2.bindings last ∧
      last.ahead = (Reading.tokens (Reading.ofText session.config.names source)).drop
        (session.run source).1.evalTally.tokens := by
  obtain ⟨config, b⟩ := session
  obtain ⟨os, c, b', t, h, hrun⟩ := Session.exists_run_eq config b source
  obtain ⟨toks, haccounts, -⟩ := h.accounts (Script.sound_ofText config.names source)
    (Script.ready_ofText config.names source) (Reading.tidy_ofText config.names source)
  have hahead : Reading.tokens (Reading.ofText config.names source) = toks ++ t.ahead :=
    haccounts.ahead
  have htokens : t.evalTally.tokens = toks.length := haccounts.tokens.trans (Nat.zero_add _)
  rw [hrun]
  refine ⟨h.accounted, t, h, ?_⟩
  show t.ahead = (Reading.tokens (Reading.ofText config.names source)).drop t.evalTally.tokens
  rw [hahead, htokens, List.drop_left]

end LineCalc
