import LineCalc.Proofs.Requests.Delivery
import LineCalc.Proofs.Session.InRow

/-!
# Where a script stands

Between two requests a script stands in a row of its text. All the lexical diagnostics that it has
read were put out, and no others. If it has stopped before the end of the input, the last thing it
told is a fatal diagnostic, of the token that it stands in front of.
-/

namespace LineCalc

open Grammar Move

/-- The lexical diagnostic that is handed over, if it is one. -/
def Pulled.lexical? : Pulled → Option Diagnostic
  | .output (.diagnostic d) => if d.isLexical then some d else none
  | _ => none

/-- What was read was put out: the lexical diagnostics told so far are those of the readings made. -/
def Script.Reported (rs : List Reading) (s : Script) : Prop :=
  ∃ done, rs = done ++ s.unread ∧ s.told.filterMap Pulled.lexical? = Reading.diagnostics done

/-- A script stands in a row of the readings `rs`. -/
structure Script.Standing (rs : List Reading) (s : Script) : Prop where
  size : s.size = rs.length
  reported : s.Reported rs
  /-- If the script has stopped before the end, it stands in front of the token that failed. -/
  row : ∃ front line more before row, InRow rs front line more before row s ∧
    (s.halted = true → s.finished = false → ∃ e t rest, s.told.getLast? = some (.failure e) ∧
      row = t :: rest ∧ e.span = t.span)

namespace Script

variable {s s' t : Script} {m : List Move} {rs : List Reading} {standIn : Span → Number}
variable {b b' : Bindings}

theorem filterMap_lexical? (new : List Output) :
    (new.map Pulled.output).filterMap Pulled.lexical? =
      (new.filter Output.isLexical).filterMap Output.diagnostic? := by
  induction new with
  | nil => rfl
  | cons o new ih =>
    rw [List.map_cons, List.filterMap_cons, ih]
    cases o with
    | value n => rfl
    | diagnostic d =>
      by_cases hd : d.isLexical = true
      · simp [Pulled.lexical?, Output.isLexical, Output.diagnostic?, hd]
      · simp [Pulled.lexical?, Output.isLexical, hd]

theorem Reported.progress (h : s.Reported rs) (hs : s.Lexical) (p : Progress s m s')
    (hm : ∀ x ∈ m, x.Plain) : s'.Reported rs := by
  obtain ⟨done, hrs, ht⟩ := h
  obtain ⟨read, new, hu, hq, hl, -⟩ := p.queue hs
  obtain ⟨new', ht', hq'⟩ := tells_acts hm s
  rw [← p.acts] at ht' hq'
  obtain rfl : new' = new := List.append_cancel_left (hq'.symm.trans hq)
  refine ⟨done ++ read, by rw [hrs, hu, List.append_assoc], ?_⟩
  have hds : ((Reading.diagnostics read).map Output.diagnostic).filterMap Output.diagnostic? =
      Reading.diagnostics read := by
    rw [List.filterMap_map]
    exact List.filterMap_some
  rw [ht', List.filterMap_append, ht, filterMap_lexical?, hl, hds, Reading.diagnostics_append]

theorem Reported.halt (h : s.Reported rs) (d : Diagnostic) : (s.halt d).Reported rs := by
  obtain ⟨done, hrs, ht⟩ := h
  refine ⟨done, hrs, ?_⟩
  show (s.logged (.halted d)).told.filterMap _ = _
  rw [told_logged, List.filterMap_append, ht]
  exact List.append_nil _

namespace Standing

theorem ofText (names : NameGrammar) (source : String) :
    (Script.ofText names source).Standing (Reading.ofText names source) where
  size := rfl
  reported := ⟨[], rfl, rfl⟩
  row := by
    obtain ⟨line, more, row, h⟩ :=
      InRow.exists_of_lookahead_eq_nil (sound_ofText names source) rfl []
    exact ⟨_, _, _, _, _, h, nofun⟩

/-- A turn of the loop goes to the next row, or stops in front of a token that does not fit. -/
theorem round (h : s.Standing rs) (hs : s.Sound) (hr : Round standIn b s b' t) : t.Standing rs := by
  obtain ⟨front, line, more, before, row, hrow, -⟩ := h.row
  have hdue := hr.due
  rcases hr.row_cases hs hrow.ahead_eq hrow.isRow with
    ⟨l, hl, rfl, p, ht⟩ | ⟨x, hx, rfl, p, -, rfl⟩
  · have hrep := h.reported.progress hs.lexical p (l.plain_moves _)
    have hsize := p.size.trans h.size
    have hhalted := p.halted.trans hdue.halted
    -- behind the line the script stands in the next row, or in front of the end of the input
    have hstands : ∃ front line more before row, InRow rs front line more before row
        (s.acts (l.moves ⟨b, standIn⟩)) := by
      rcases hrow.acts_line _ hs hl with ⟨-, line', more', row', hr'⟩ | ⟨-, line', hr'⟩
      · exact ⟨_, _, _, _, _, hr'⟩
      · exact ⟨_, _, _, _, _, hr'⟩
    obtain ⟨front', line', more', before', row', hr'⟩ := hstands
    rcases ht with ⟨-, rfl⟩ | ⟨-, -, rfl⟩
    · refine ⟨hsize, hrep, front', line', more', before', row', hr', fun hh => ?_⟩
      rw [hhalted] at hh
      cases hh
    · exact ⟨hsize, hrep, front', line', more', before', row', hr'.congr rfl rfl, fun _ => nofun⟩
  · have hrep := h.reported.progress hs.lexical p fun y hy => (x.quiet_moves _ y hy).plain
    have hsize := p.size.trans h.size
    obtain ⟨line', hr'⟩ := hrow.acts_slip ⟨b, standIn⟩ hs hx
    refine ⟨hsize, hrep.halt _, _, _, _, _, _, hr'.congr rfl rfl, fun _ _ => ⟨x.diagnostic, x.token,
      x.after, ?_, rfl, hx.span_diagnostic⟩⟩
    show (logged _ (.halted x.diagnostic)).told.getLast? = _
    rw [told_logged]
    exact List.getLast?_concat

theorem handOver (h : s.Standing rs) : s.handOver.2.Standing rs := by
  obtain ⟨front, line, more, before, row, hrow, hstop⟩ := h.row
  obtain ⟨queue, failure, hs⟩ := s.exists_handOver_eq
  rw [hs]
  exact ⟨h.size, h.reported, front, line, more, before, row, hrow.congr rfl rfl, hstop⟩

theorem rounds (h : s.Standing rs) (hs : s.Sound) (hr : Rounds standIn b s b' t) : t.Standing rs :=
  hr.induct (P := fun _ s => s.Standing rs) hs (fun hs hr h => h.round hs hr) h

end Standing

end Script

/-! ### Skipping what is left of a row -/

/-- Moves that put out nothing leave in the queue what is read meanwhile. -/
theorem Progress.exists_read {s s' : Script} {m : List Move} (p : Progress s m s') (hs : s.Lexical)
    (hm : outputs m = []) : ∃ read, s.unread = read ++ s'.unread ∧
      s'.queue = s.queue ++ (Reading.diagnostics read).map .diagnostic := by
  obtain ⟨read, new, hu, hq, hl, hn⟩ := p.queue hs
  have hall : ∀ o ∈ new, o.isLexical = true := by
    intro o ho
    rw [hm, List.filter_eq_nil_iff] at hn
    simpa using hn o ho
  rw [List.filter_eq_self.mpr hall] at hl
  exact ⟨read, hu, by rw [hq, hl]⟩

/-- What is left of a row that failed is skipped: behind a line break stands the next row, and the
end of the input is left as a row of its own. -/
theorem InRow.resumed {rs front line more : List Reading} {before body : List Token} {stop : LineEnd}
    {s : Script} (h : InRow rs front line more before (body ++ [stop.1]) s) (hs : s.Sound) :
    (stop.1.kind = .newLine ∧ (s.resumed body stop).lookahead = [] ∧
      (s.resumed body stop).unread = more ∧ ∃ line' more' row',
      InRow rs (front ++ line') line' more' (before ++ (body ++ [stop.1])) row'
        (s.resumed body stop)) ∨
    stop.1.kind = .endOfInput ∧
      ∃ line', InRow rs front line' more (before ++ body) [stop.1] (s.resumed body stop) := by
  have hp : InRow rs front line more before (body ++ [stop.1]) s.pardoned := h.congr rfl rfl
  rcases hp.past hs.pardoned (allLegal_skipMoves stop h.isRow.body_inside)
    (Feed.taken_skipMoves body stop) with ⟨hk, hl, hu, line', more', row', hr⟩ | ⟨hk, line', hr⟩
  · exact .inl ⟨hk, hl, hu, line', more', row', hr.congr rfl rfl⟩
  · exact .inr ⟨hk, line', hr.congr rfl rfl⟩

/-- The script `s` had failed, with nothing in its queue. It goes on as `t`, for which `skipped` was
read. -/
structure Script.Skips (s t : Script) (skipped : List Reading) : Prop where
  unread : s.unread = skipped ++ t.unread
  queue : t.queue = (Reading.diagnostics skipped).map .diagnostic
  lexical : ∀ d ∈ Reading.diagnostics skipped, d.isLexical = true
  failure : t.failure = none
  halted : t.halted = false
  finished : t.finished = false
  size : t.size = s.size
  sound : t.Sound

namespace Dialogue

variable {d : Dialogue} {rs : List Reading}

/-- Recovering skips what is left of the row. -/
theorem exists_skips {front line more : List Reading} {before body : List Token} {stop : LineEnd}
    (h : InRow rs front line more before (body ++ [stop.1]) d.script) (hs : d.script.Sound)
    (hf : Flags true d.script) :
    d.answer .recover = (.recovered true, ⟨d.script.resumed body stop, d.bindings⟩) ∧
      ∃ skipped, d.script.Skips (d.script.resumed body stop) skipped := by
  obtain ⟨hh, hn, -⟩ := hf.fails.mp rfl
  obtain ⟨p, hr⟩ := exists_answer_recover hs hh hn stop h.ahead_eq_body h.isRow.body_inside
  obtain ⟨skipped, hu, hq⟩ := p.exists_read hs.lexical (Feed.outputs_skipMoves body stop)
  have hnil : d.script.pardoned.queue = [] := hf.queue rfl
  have hsound : (d.answer .recover).2.script.Sound := sound_answer hs .recover
  rw [hnil, List.nil_append] at hq
  rw [hr] at hsound
  refine ⟨hr, skipped, hu, hq, fun x hx => ?_, p.failure, rfl, p.finished.trans hn, p.size, hsound⟩
  obtain ⟨r, hrs, hi⟩ := Reading.mem_diagnostics.mp hx
  have hmem : r ∈ d.script.pardoned.unread := hu ▸ List.mem_append_left _ hrs
  exact hs.lexical r hmem x hi

theorem standing_answer (hs : d.script.Sound) (h : d.script.Standing rs) (q : Request) :
    (d.answer q).2.script.Standing rs := by
  cases q with
  | next =>
    obtain ⟨b', t, hr, -, hn⟩ := exists_rounds_answer hs
    rw [hn]
    exact (h.rounds hs hr).handOver
  | recover =>
    rcases answer_recover_cases hs with hr | ⟨hh, hn, -⟩
    · rw [hr]
      exact h
    · obtain ⟨front, line, more, before, row, hrow, -⟩ := h.row
      obtain ⟨body, stop, rfl⟩ := hrow.exists_stop
      obtain ⟨p, hr⟩ := exists_answer_recover hs hh hn stop hrow.ahead_eq_body
        hrow.isRow.body_inside
      have hrep : d.script.pardoned.Reported rs := h.reported
      have hrep' := hrep.progress hs.lexical p (plain_skipMoves body stop)
      rw [hr]
      refine ⟨p.size.trans h.size, hrep', ?_⟩
      rcases hrow.resumed hs with
        ⟨-, -, -, line', more', row', hr'⟩ | ⟨-, line', hr'⟩
      · exact ⟨_, _, _, _, _, hr', nofun⟩
      · exact ⟨_, _, _, _, _, hr', nofun⟩

theorem standing_serve (hs : d.script.Sound) (h : d.script.Standing rs) (qs : List Request) :
    (d.serve qs).2.script.Standing rs := by
  induction qs generalizing d with
  | nil => exact h
  | cons q qs ih => exact ih (sound_answer hs q) (standing_answer hs h q)

end Dialogue

end LineCalc
