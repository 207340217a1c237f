import LineCalc.CommandLine
import LineCalc.Proofs.Session.Append
import LineCalc.Proofs.Transcript.Lines

/-!
# Keeping going only adds

A strict run and one that keeps going do the same up to the first fatal diagnostic. There the strict
run stops, with the bindings that the lines in front left, as if the text ended in front of the line
that failed. The other one goes on, and always completes.
-/

namespace LineCalc

open Grammar Move

variable {names : NameGrammar} {source : String} {standIn : Span → Number} {b b' : Bindings}
variable {s t : Script} {c c' : Bool} {os os' : List Output} {k : Nat}

/-! ### The strict run and the other one -/

/-- No output is fatal. -/
def Output.Clean (os : List Output) : Prop := ∀ d, .diagnostic d ∈ os → d.isFatal = false

open Output (Clean)

theorem clean_append : Clean (os ++ os') ↔ Clean os ∧ Clean os' := by
  constructor
  · intro h
    exact ⟨fun d hd => h d (List.mem_append_left _ hd), fun d hd => h d (List.mem_append_right _ hd)⟩
  · rintro ⟨h, h'⟩ d hd
    rcases List.mem_append.mp hd with hd | hd
    · exact h d hd
    · exact h' d hd

theorem clean_of_notices (h : ∀ o ∈ os, o.isNotice = true) : Clean os :=
  fun d hd => Diagnostic.isFatal_of_isNotice (h (.diagnostic d) hd)

theorem not_clean_of_mem {d : Diagnostic} (hd : .diagnostic d ∈ os) (hf : d.isFatal = true) :
    ¬Clean os := by
  intro h
  rw [h d hd] at hf
  cases hf

/-- Passing a row is clean, unless a slip is skipped. -/
theorem Passes.clean_or (h : Passes c standIn b s os b' t) (hs : s.Sound) (hr : s.Ready) :
    (Clean os ∧ ∀ c', Passes c' standIn b s os b' t) ∨
    c = true ∧ ∃ pre d post u, os = pre ++ .diagnostic d :: post ∧ Clean pre ∧ d.isFatal = true ∧
      Ends false standIn b s (pre ++ [.diagnostic d]) false u := by
  obtain ⟨row, rest, ha, hrow⟩ := hs.exists_row
  rcases h.row_cases hs hr.finished ha hrow with
    ⟨l, hl, rfl, hresult, rfl, rfl⟩ | ⟨hc, rfl, x, body, stop, hx, rfl, he, hb, rfl, rfl⟩
  · left
    refine ⟨fun d hd => l.isFatal_of_mem_queue ⟨b, standIn⟩ hl hs hr ha hd, fun c' => ?_⟩
    exact .of_line c' l hl ha hs.room hresult
  · right
    refine ⟨hc, _, x.diagnostic, _, _, rfl, ?_, hx.isFatal, .of_slip x hx ha hs.room⟩
    exact clean_of_notices (x.notices ⟨b', standIn⟩ hx hs hr ha)

/-- The end of a run is complete and clean, or a strict run stops. -/
theorem Ends.clean_or (h : Ends c standIn b s os c' t) (hs : s.Sound) (hr : s.Ready) :
    (Clean os ∧ c' = true ∧ ∀ c, Ends c standIn b s os true t) ∨
    c = false ∧ c' = false ∧ ∃ pre d, os = pre ++ [.diagnostic d] ∧ Clean pre ∧ d.isFatal = true := by
  obtain ⟨row, rest, ha, hrow⟩ := hs.exists_row
  rcases h.row_cases hs ha hrow with
    ⟨hc, l, hl, rfl, hresult, rfl, rfl⟩ | ⟨hc, hc', x, hx, rfl, rfl, rfl⟩
  · left
    refine ⟨fun d hd => l.isFatal_of_mem_queue ⟨b, standIn⟩ hl hs hr ha hd, hc, fun c => ?_⟩
    exact .of_line c l hl ha hs.room hresult
  · right
    refine ⟨hc, hc', _, x.diagnostic, rfl, ?_, hx.isFatal⟩
    exact clean_of_notices (x.notices ⟨b, standIn⟩ hx hs hr ha)

/-- What a strict run makes of a script that another run goes through: the same, or it stops at the
first fatal diagnostic. -/
theorem Runs.strict (h : Runs true standIn b s os c b' t) (hs : s.Sound) (hr : s.Ready) :
    (Clean os ∧ Runs false standIn b s os c b' t) ∨
    ∃ pre d post b₁ u, os = pre ++ .diagnostic d :: post ∧ Clean pre ∧ d.isFatal = true ∧
      Runs false standIn b s (pre ++ [.diagnostic d]) false b₁ u := by
  induction h with
  | last h =>
    left
    rcases h.clean_or hs hr with ⟨hclean, rfl, hends⟩ | ⟨hc, -⟩
    · exact ⟨hclean, .last (hends false)⟩
    · cases hc
  | pass h rest ih =>
    obtain ⟨hs₁, hr₁⟩ := h.ready hs hr
    rcases h.clean_or hs hr with ⟨hclean, hpasses⟩ | ⟨-, pre, d, post, u, rfl, hpre, hd, hends⟩
    · rcases ih hs₁ hr₁ with ⟨hclean', hruns⟩ | ⟨pre, d, post, b₁, u, rfl, hpre, hd, hruns⟩
      · exact .inl ⟨clean_append.mpr ⟨hclean, hclean'⟩, .pass (hpasses false) hruns⟩
      · right
        refine ⟨_, d, post, b₁, u, (List.append_assoc ..).symm, clean_append.mpr ⟨hclean, hpre⟩, hd, ?_⟩
        rw [List.append_assoc]
        exact .pass (hpasses false) hruns
    · right
      exact ⟨pre, d, _, _, u, by rw [List.append_assoc]; rfl, hpre, hd, .last hends⟩

/-- A run is complete when it keeps going, or when nothing is fatal. -/
theorem Runs.completed_iff (h : Runs c standIn b s os c' b' t) (hs : s.Sound) (hr : s.Ready) :
    c' = true ↔ c = true ∨ Clean os := by
  induction h with
  | last h =>
    rcases h.clean_or hs hr with ⟨hclean, rfl, -⟩ | ⟨rfl, rfl, pre, d, rfl, -, hd⟩
    · simp [hclean]
    · simp [not_clean_of_mem (List.mem_append_right pre (List.mem_singleton_self _)) hd]
  | pass h rest ih =>
    obtain ⟨hs₁, hr₁⟩ := h.ready hs hr
    rw [ih hs₁ hr₁, clean_append]
    rcases h.clean_or hs hr with ⟨hclean, -⟩ | ⟨rfl, -⟩
    · simp [hclean]
    · simp

/-- Where only the end of the input is left, a run is complete. -/
theorem Runs.completed_of_atEnd (h : Runs c standIn b s os c' b' t) (hs : s.Sound) (hend : s.AtEnd) :
    c' = true := by
  obtain ⟨u, hu⟩ := statement_atEnd hend hs ⟨b, standIn⟩
  cases h with
  | last h =>
    cases h with
    | done h => rfl
    | stop hk h => cases hu.symm.trans (Work.statement_error.mp h)
  | pass h rest =>
    cases h with
    | line h => cases hu.symm.trans (Work.statement_more.mp h)
    | skip hk h hv => cases hu.symm.trans (Work.statement_error.mp h)

/-! ### The lines in front -/

/-- The script that has only the readings `part` to read. -/
def Script.cutTo (s : Script) (part : List Reading) : Script := { s with unread := part }

/-- A row can be taken without what stands behind the next readings. -/
theorem InRow.acts_cutTo {rs front line more : List Reading} {before row : List Token} {m : List Move}
    (h : InRow rs front line more before row s) (hs : s.Lexical) (hm : AllLegal row m)
    (ht : taken m = row) (part : List Reading) :
    (s.cutTo (line ++ part)).acts m = (s.acts m).cutTo part := by
  obtain ⟨he, p⟩ := h.acts_eq hm
  obtain ⟨-, hu⟩ := h.acts_all hs hm ht
  have hlegal : AllLegal { s with unread := line }.ahead m := h.ahead_line.symm ▸ hm
  have hcut : s.cutTo (line ++ part) = { s with unread := line }.extend part s.size := rfl
  rw [hcut, Script.acts_extend hlegal, he]
  rw [he] at hu
  generalize { s with unread := line }.acts m = u at hu
  have hnil : u.unread = [] := List.append_cancel_right (hu : u.unread ++ more = [] ++ more)
  show { u with unread := u.unread ++ part, size := s.size } = { u with unread := part, size := s.size }
  rw [hnil, List.nil_append]

/-- A strict run on `s` crosses the lines `part`, which leave `b'` and put out `pre`, and stops on the
line behind them, at the diagnostic `d`. -/
structure StopsBehind (standIn : Span → Number) (b : Bindings) (s : Script) (k : Nat)
    (os : List Output) (b' : Bindings) (part : List Reading) (pre : List Output) (d : Diagnostic)
    (u : Script) : Prop where
  unread : ∃ more, s.unread = part ++ more
  ended : ∀ r, part.getLast? = some r → ∃ tok, r.item = .ok tok ∧ tok.kind = .newLine
  outputs : ∃ notices, os = pre ++ notices ++ [.diagnostic d]
  clean : Clean pre
  line : d.span.start.line = k + newLines (Reading.tokens part)
  ready : u.Ready
  behind : u.lookahead = [] ∧ u.unread = []
  crosses : ∀ c, Crosses c standIn b (s.cutTo part) pre b' u

/-- One more line in front is crossed. -/
theorem StopsBehind.line_cons {front line more part : List Reading} {before : List Token} {l : Line}
    {b₁ : Bindings} {pre : List Output} {d : Diagnostic} {u : Script}
    (h : StopsBehind standIn b₁ (s.acts (l.moves ⟨b, standIn⟩)).flushed (k + 1) os b' part pre d u)
    (hrow : InRow (Reading.ofText names source) front line more before l.tokens s)
    (hlook : s.lookahead = []) (hl : l.height ≤ maxNesting) (hs : s.Sound) (hr : s.Ready)
    (hresult : l.result ⟨b, standIn⟩ = some b₁) (hstop : l.stop.1.kind = .newLine) :
    StopsBehind standIn b s k ((s.acts (l.moves ⟨b, standIn⟩)).queue ++ os) b' (line ++ part)
      ((s.acts (l.moves ⟨b, standIn⟩)).queue ++ pre) d u := by
  have hlegal := l.allLegal_moves ⟨b, standIn⟩ hl
  have htaken : taken (l.moves ⟨b, standIn⟩) = l.tokens := by
    rw [l.taken_moves, l.takes_eq_body, l.tokens_eq_body, LineEnd.taken_moves_of_newLine hstop]
  have htokens := hrow.tokens_line hlook
  obtain ⟨-, hunread⟩ := hrow.acts_all hs.lexical hlegal htaken
  -- the line was read, and then the part behind it
  obtain ⟨rest, hmore⟩ : ∃ rest, more = part ++ rest := by
    obtain ⟨rest, hrest⟩ := h.unread
    exact ⟨rest, hunread.symm.trans hrest⟩
  refine ⟨⟨rest, ?_⟩, fun r hlast => ?_, ?_, ?_, ?_, h.ready, h.behind, fun c => ?_⟩
  · rw [hrow.unread, hmore, List.append_assoc]
  · rw [List.getLast?_append] at hlast
    cases hpart : part.getLast? with
    | some r' =>
      rw [hpart] at hlast
      obtain rfl := Option.some.inj hlast
      exact h.ended r' hpart
    | none =>
      rw [hpart, Option.none_or] at hlast
      rw [l.tokens_eq_body] at hrow
      exact ⟨l.stop.1, hrow.item_of_getLast? hlast, hstop⟩
  · obtain ⟨notices, hos⟩ := h.outputs
    exact ⟨notices, by rw [hos]; simp⟩
  · rw [clean_append]
    exact ⟨fun d hd => l.isFatal_of_mem_queue ⟨b, standIn⟩ hl hs hr hrow.ahead_eq hd, h.clean⟩
  · have hone : newLines l.tokens = 1 := by
      have hbody := hrow.isRow
      rw [l.tokens_eq_body] at hbody ⊢
      rw [newLines_append, hbody.newLines_body, newLines_singleton, if_pos hstop]
    rw [h.line, Reading.tokens_append, newLines_append, htokens, hone]
    omega
  · refine Crosses.trans ?_ (h.crosses c)
    have ha : (s.cutTo (line ++ part)).ahead = l.tokens ++ Reading.tokens part := by
      show s.lookahead ++ Reading.tokens (line ++ part) = _
      rw [hlook, Reading.tokens_append, htokens, List.nil_append]
    have hroom : (s.cutTo (line ++ part)).ahead.length ≤ (s.cutTo (line ++ part)).size := by
      have hle := hs.room
      rw [hrow.ahead_eq, hmore, Reading.tokens_append] at hle
      rw [ha]
      simp only [List.length_append] at hle ⊢
      exact Nat.le_trans (by omega) hle
    have hcrosses := crosses_line c l hl ha hroom hresult
    rw [hrow.acts_cutTo hs.lexical hlegal htaken] at hcrosses
    exact hcrosses

/-- A strict run that is not complete stops behind some lines. -/
theorem Runs.exists_stopsBehind (h : Runs false standIn b s os c' b' t) (hc : c' = false)
    (hs : s.Sound) (hr : s.Ready) (hk : s.AtLine names source k) :
    ∃ part pre d u, StopsBehind standIn b s k os b' part pre d u := by
  induction h generalizing k with
  | @last b s t os c' h =>
    rcases h.clean_or hs hr with ⟨-, rfl, -⟩ | ⟨-, -, pre, d, rfl, -⟩
    · cases hc
    · refine ⟨[], [], d, s.cutTo [], ⟨s.unread, rfl⟩, by simp, ⟨pre, rfl⟩, by simp [Clean], ?_,
        ⟨hr.queue, hr.failure, hr.halted, hr.finished⟩, ⟨hk.1, rfl⟩, fun c => .refl c standIn b _⟩
      exact (h.block hs hr hk).line d (List.mem_append_right _ (List.mem_singleton_self _))
  | @pass b b₁ b' s s₁ t os os' c' h rest ih =>
    obtain ⟨hs₁, hr₁⟩ := h.ready hs hr
    have hlook := hk.1
    obtain ⟨hblock, hnext⟩ := h.block hs hr hk
    obtain ⟨front, line, more, before, row, hrow, rfl⟩ := hk.exists_inRow hs
    rcases h.row_cases hs hr.finished hrow.ahead_eq hrow.isRow with
      ⟨l, hl, rfl, hresult, rfl, rfl⟩ | ⟨hkeep, -⟩
    · -- a run that gets to the end of the input would be complete
      have hopen : ¬(s.acts (l.moves ⟨b, standIn⟩)).flushed.AtEnd := by
        intro hend
        cases (rest.completed_of_atEnd hs₁ hend).symm.trans hc
      rcases hrow.acts_line ⟨b, standIn⟩ hs hl with ⟨hstop, -⟩ | ⟨hstop, line', hend⟩
      · rcases hnext with hnext | ⟨hthrough, -⟩
        · obtain ⟨part, pre, d, u, hstops⟩ := ih hc hs₁ hr₁ hnext
          exact ⟨_, _, d, u, hstops.line_cons hrow hlook hl hs hr hresult hstop⟩
        · exact absurd hthrough.1 hopen
      · exact absurd (hend.atEnd hstop) hopen
    · cases hkeep

/-- The lines that a strict run crosses are a text of their own. Its run is complete and clean, and
leaves the same bindings. -/
theorem Runs.exists_front {d : Diagnostic}
    (h : Runs false standIn b (.ofText names source) (os ++ [.diagnostic d]) false b' t) :
    ∃ front back : String, source = front ++ back ∧
      (front.toList = [] ∨ Ended front.toList) ∧ Parts front.toList back.toList ∧
      d.span.start.line = 1 + lineBreaks front.toList ∧
      ∃ pre, Clean pre ∧ ∀ c, ∃ u, Runs c standIn b (.ofText names front) pre true b' u := by
  have hstart : (Script.ofText names source).AtLine names source 1 := ⟨rfl, [], rfl, rfl⟩
  obtain ⟨part, pre, d', u, hstops⟩ := h.exists_stopsBehind rfl (Script.sound_ofText names source)
    (Script.ready_ofText names source) hstart
  obtain ⟨more, hunread⟩ := hstops.unread
  have hwhole : Reading.ofText names source = part ++ more := hunread
  obtain ⟨notices, hos⟩ := hstops.outputs
  obtain ⟨-, hlast⟩ := List.append_inj' hos rfl
  obtain rfl : d = d' := by simpa using hlast
  -- the text of the lines
  obtain ⟨front, back, hsource, htext, hended, hparts, hback⟩ :
      ∃ front back : String, source = front ++ back ∧ front.toList = Reading.text part ∧
        (front.toList = [] ∨ Ended front.toList) ∧ Parts front.toList back.toList ∧
        more.length = (Reading.ofText names back).length := by
    rcases List.eq_nil_or_concat part with rfl | ⟨init, r, rfl⟩
    · exact ⟨"", source, by simp, rfl, .inl rfl, .nil_left _, by rw [hwhole]; rfl⟩
    · obtain ⟨tok, hr, hk⟩ := hstops.ended r (by simp)
      have hat : Reading.ofText names source = init ++ r :: more := by
        rw [hwhole]
        simp
      obtain ⟨front, back, n, hsource, htext, hended, hparts, hback⟩ :=
        Reader.exists_of_ofText_eq hat hr hk
      refine ⟨front, back, hsource, ?_, .inr hended, hparts, ?_⟩
      · rw [htext, List.concat_eq_append]
      · rw [hback, List.length_map]
  obtain ⟨rs, place, n, hfront, hboth, -⟩ := Reading.ofText_append names hended hparts
  obtain rfl : part = rs := by
    rw [← hsource, hwhole] at hboth
    exact (List.append_inj' hboth (by rw [hback, List.length_map])).1
  refine ⟨front, back, hsource, hended, hparts, ?_, pre, hstops.clean, fun c => ?_⟩
  · rw [hstops.line, htext, Reading.lineBreaks_text hwhole]
  · obtain ⟨-, hcrosses⟩ := hstops.crosses c _ _
      (Script.holds_ofReadings part [⟨[], .ok (Reading.endToken place)⟩])
    have hruns := hcrosses _ _ _ _
      (runs_end c standIn b' hstops.ready hstops.behind.1 hstops.behind.2 place (by simp))
    rw [List.append_nil] at hruns
    have hscript : Script.ofText names front = _ := congrArg Script.ofReadings hfront
    rw [hscript]
    exact ⟨_, hruns⟩

/-! ### Sessions -/

/-- How the program answers when it is asked to run a file: what it makes of the text depends on the
text alone. -/
theorem CommandLine.exists_reply {m : Type → Type} [Monad m]
    (read : String → m (Except ReadFailure String)) {args : List String} {o : Options}
    (h : request args = .run o) : ∃ reply : Except ReadFailure String → Response,
      (respond? read args = do
        let text ← read (o.input.getD Options.defaultInput)
        return some (reply text)) ∧
      ∀ source, reply (.ok source) = answer (Session.run { config := o.config } source).1 := by
  refine ⟨fun text => text.casesOn (unreadable (o.input.getD Options.defaultInput)) fun source =>
    answer (Session.run { config := o.config } source).1, ?_, fun source => rfl⟩
  unfold respond?
  rw [h]
  refine congrArg (read _ >>= ·) (funext fun text => ?_)
  cases text <;> rfl

/-- The run of a text is complete when it keeps going, or when nothing is fatal. -/
theorem Session.completed_iff (session : Session) (source : String) :
    (session.run source).1.completed = true ↔
      session.config.keepGoing = true ∨ Clean (session.run source).1.outputs := by
  obtain ⟨config, b⟩ := session
  obtain ⟨os, c, b', t, h, hrun⟩ := Session.exists_run_eq config b source
  rw [hrun]
  exact h.completed_iff (Script.sound_ofText _ source) (Script.ready_ofText _ source)

theorem CommandLine.exit_answer_iff (session : Session) (source : String) :
    (answer (session.run source).1).exit = 0 ↔
      session.config.keepGoing = true ∨ Clean (session.run source).1.outputs := by
  rw [← session.completed_iff source, answer]
  cases (session.run source).1.completed <;> simp

/-- A strict run of a text and one that keeps going are the same, or the strict one stops at the first
fatal diagnostic. -/
theorem Session.strict_cases (names : NameGrammar) (standIn : Span → Number) (bindings : Bindings)
    (source : String) :
    let strict := Session.run ⟨{ names, standIn, keepGoing := false }, bindings⟩ source
    let lenient := Session.run ⟨{ names, standIn, keepGoing := true }, bindings⟩ source
    (Clean lenient.1.outputs ∧ strict.1 = lenient.1 ∧ strict.2.bindings = lenient.2.bindings) ∨
    ∃ pre d post u, lenient.1.outputs = pre ++ .diagnostic d :: post ∧ Clean pre ∧
      d.isFatal = true ∧ strict.1.outputs = pre ++ [.diagnostic d] ∧ strict.1.completed = false ∧
      Runs false standIn bindings (.ofText names source) (pre ++ [.diagnostic d]) false
        strict.2.bindings u := by
  intro strict lenient
  obtain ⟨os, c, b', t, h, hrun⟩ :=
    Session.exists_run_eq { names, standIn, keepGoing := true } bindings source
  have hlenient : lenient = _ := hrun
  rw [hlenient]
  rcases h.strict (Script.sound_ofText names source) (Script.ready_ofText names source) with
    ⟨hclean, hruns⟩ | ⟨pre, d, post, b₁, u, hos, hpre, hd, hruns⟩
  · have hstrict : strict = _ := Session.run_eq_of_runs hruns
    rw [hstrict]
    exact .inl ⟨hclean, rfl, rfl⟩
  · have hstrict : strict = _ := Session.run_eq_of_runs hruns
    rw [hstrict]
    exact .inr ⟨pre, d, post, u, hos, hpre, hd, rfl, rfl, hruns⟩

/-- **Keeping going only adds.** A strict run puts out the first part of what a run puts out that
keeps going. If nothing is fatal there is no difference at all. Otherwise the strict run ends with the
first fatal diagnostic and is not complete, and it leaves the bindings that the lines in front leave,
run as a text of their own. A run that keeps going is always complete. So the program exits with zero
if and only if it was asked to keep going, or nothing is fatal. -/
theorem Session.run_keepGoing (names : NameGrammar) (standIn : Span → Number) (bindings : Bindings)
    (source : String) :
    let strict := Session.run ⟨{ names, standIn, keepGoing := false }, bindings⟩ source
    let lenient := Session.run ⟨{ names, standIn, keepGoing := true }, bindings⟩ source
    strict.1.outputs <+: lenient.1.outputs ∧ lenient.1.completed = true ∧
    (Clean lenient.1.outputs →
      strict.1 = lenient.1 ∧ strict.2.bindings = lenient.2.bindings ∧ strict.1.completed = true) ∧
    (¬Clean lenient.1.outputs → strict.1.completed = false ∧ ∃ pre d post,
      lenient.1.outputs = pre ++ .diagnostic d :: post ∧ Clean pre ∧ d.isFatal = true ∧
      strict.1.outputs = pre ++ [.diagnostic d] ∧
      ∃ front back : String, source = front ++ back ∧
        (front.toList = [] ∨ Ended front.toList) ∧ Parts front.toList back.toList ∧
        d.span.start.line = 1 + lineBreaks front.toList ∧
        ∀ keepGoing,
          let first := Session.run ⟨{ names, standIn, keepGoing }, bindings⟩ front
          Clean first.1.outputs ∧ first.1.completed = true ∧
            first.2.bindings = strict.2.bindings) ∧
    ∀ {m : Type → Type} [Monad m] (read : String → m (Except ReadFailure String))
      (args : List String) (o : Options), CommandLine.request args = .run o →
      ∃ reply : Except ReadFailure String → Response,
        (CommandLine.respond? read args = do
          let text ← read (o.input.getD Options.defaultInput)
          return some (reply text)) ∧
        ((reply (.ok source)).exit = 0 ↔ o.keepGoing = true ∨
          Clean (Session.run { config := o.config } source).1.outputs) := by
  intro strict lenient
  have hcompleted : lenient.1.completed = true := (Session.completed_iff _ source).mpr (.inl rfl)
  -- either the strict run is the same, or it stops behind some whole lines
  have hcases := Session.strict_cases names standIn bindings source
  refine ⟨?_, hcompleted, fun hclean => ?_, fun hclean => ?_, fun read args o ho => ?_⟩
  · rcases hcases with ⟨-, hsame, -⟩ | ⟨pre, d, post, u, hout, -, -, hstop, -⟩
    · exact hsame ▸ List.prefix_rfl
    · rw [hstop, hout]
      exact ⟨post, by simp⟩
  · rcases hcases with ⟨-, hsame, hbindings⟩ | ⟨pre, d, post, u, hout, -, hd, -⟩
    · exact ⟨hsame, hbindings, hsame ▸ hcompleted⟩
    · exact absurd hclean (not_clean_of_mem (hout ▸ by simp) hd)
  · rcases hcases with ⟨hclean', -⟩ | ⟨pre, d, post, u, hout, hpre, hd, hstop, hincomplete, hruns⟩
    · exact absurd hclean' hclean
    · obtain ⟨front, back, hsource, hended, hparts, hline, os, hos, hfront⟩ := hruns.exists_front
      refine ⟨hincomplete, pre, d, post, hout, hpre, hd, hstop, front, back, hsource, hended, hparts,
        hline, fun keepGoing => ?_⟩
      obtain ⟨v, hv⟩ := hfront keepGoing
      intro first
      have hfirst : first = _ := Session.run_eq_of_runs hv
      rw [hfirst]
      exact ⟨hos, rfl, rfl⟩
  · obtain ⟨reply, hrespond, hreply⟩ := CommandLine.exists_reply read ho
    refine ⟨reply, hrespond, ?_⟩
    rw [hreply]
    exact CommandLine.exit_answer_iff { config := o.config } source

end LineCalc
