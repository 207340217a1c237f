import LineCalc.Proofs.Requests.Standing
import LineCalc.Proofs.Requests.Told

/-!
# What a dialogue promises

Whoever asks a script for its outputs is handed over each of them once, in the order in which they
came about. After a fatal diagnostic there is nothing more until the script recovers. It then goes on
behind the line that failed, as a fresh script would on the text there.
-/

namespace LineCalc

open Grammar Move

/-! ### Skipping what is left of a row -/

namespace Script

variable {s : Script} {body : List Token} {stop : LineEnd}

theorem act_look_lookahead_ne_nil (h : 0 < s.ahead.length) : (s.act (.look 0)).lookahead ≠ [] := by
  obtain ⟨t, ht, -, hl, -⟩ := progress_look h
  have ha : s.act (.look 0) = t := by rw [act, ht]; rfl
  rw [ha]
  exact List.ne_nil_of_length_pos hl

theorem resumed_lookahead_ne_nil (hs : s.Sound) (hm : AllLegal s.ahead (Feed.skipMoves body stop))
    (hk : stop.1.kind = .endOfInput) : (s.resumed body stop).lookahead ≠ [] := by
  have hmoves : Feed.skipMoves body stop =
      body.flatMap (fun t => [.look 0, .take t]) ++ [.look 0] := by
    rw [Feed.skipMoves, LineEnd.moves_of_endOfInput hk]
  have hsound : (s.pardoned.acts (body.flatMap fun t => [.look 0, .take t])).Sound := by
    rw [hmoves, allLegal_append] at hm
    exact hs.pardoned.progress (progress_acts hm.1)
  show (s.pardoned.acts (Feed.skipMoves body stop)).lookahead ≠ []
  rw [hmoves, acts_append]
  apply act_look_lookahead_ne_nil
  exact hsound.length_ahead_pos

end Script

variable {names : NameGrammar} {source : String} {d : Dialogue}

namespace Dialogue

/-- What waits is handed over by as many requests, in its order. -/
theorem serve_waiting (d : Dialogue) :
    d.serve (List.replicate (waiting d.script).length .next) =
      ((waiting d.script).map .pulled, { d with script := d.script.flushed.pardoned }) := by
  obtain ⟨s, b⟩ := d
  have hn : (waiting s).length = s.queue.length + s.failure.toList.length := by
    rw [waiting, List.length_append, List.length_map, List.length_map]
  rw [hn, List.replicate_add, serve_append, serve_queue, waiting, List.map_append]
  cases hf : s.failure with
  | none =>
    have hs : s.flushed.pardoned = s.flushed := by
      rw [Script.pardoned, Script.flushed, ← hf]
    rw [hs]
    simp [serve]
  | some e =>
    have hd : ¬s.flushed.Due := by
      intro hd
      have hfail : s.flushed.failure = none := hd.failure
      rw [show s.flushed.failure = s.failure from rfl, hf] at hfail
      cases hfail
    have hh : s.flushed.handOver = (.failure e, s.flushed.pardoned) := Script.handOver_failure rfl hf
    have ha : answer ⟨s.flushed, b⟩ .next = (.pulled (.failure e), ⟨s.flushed.pardoned, b⟩) := by
      rw [answer_next_of_not_due (d := ⟨s.flushed, b⟩) hd, hh]
    simp [serve, ha]

/-- The answers to requests that come after the diagnostics `ds` are handed over, if they are those
of another dialogue `k` lines further down. -/
structure Follows (u : Dialogue) (ds : List Diagnostic) (k : Nat) (v : Dialogue) : Prop where
  answers : ∀ qs, (u.serve (List.replicate ds.length .next ++ qs)).1 =
    (ds.map fun x => .pulled (.output (.diagnostic x))) ++ (v.serve qs).1.map (Answer.down k)
  bindings : ∀ qs, (u.serve (List.replicate ds.length .next ++ qs)).2.bindings =
    (v.serve qs).2.bindings

/-- It is enough that they follow when the queue was handed over. -/
theorem follows_of_flushed {u v : Dialogue} {ds : List Diagnostic} {k : Nat}
    (hq : u.script.queue = ds.map .diagnostic)
    (h : ∀ qs, (serve { u with script := u.script.flushed } qs).1 =
        (v.serve qs).1.map (Answer.down k) ∧
      (serve { u with script := u.script.flushed } qs).2.bindings = (v.serve qs).2.bindings) :
    Follows u ds k v := by
  have hl : ds.length = u.script.queue.length := by rw [hq, List.length_map]
  constructor
  · intro qs
    rw [hl, serve_append, serve_queue, (h qs).1, hq, List.map_map]
    rfl
  · intro qs
    rw [hl, serve_append, serve_queue]
    exact (h qs).2

/-- Behind a line break a script goes on as a fresh one does on the text there. -/
theorem follows_ofText {s : Script} {u : Dialogue} {skipped : List Reading} {back : String}
    {k n : Nat} (h : s.Skips u.script skipped) (hl : u.script.lookahead = [])
    (hu : u.script.unread = (Reading.ofText names back).map (Reading.down k n))
    (hz : u.script.unread.length ≤ u.script.size) :
    Follows u (Reading.diagnostics skipped) k (ofText names back u.bindings) := by
  apply follows_of_flushed h.queue
  intro qs
  -- the same script, made of one that has nothing to read
  let base : Script := { u.script.flushed with unread := [] }
  have hbase : base.extend ((Reading.ofText names back).map (Reading.down k n)) u.script.size =
      u.script.flushed := by
    rw [← hu]
    rfl
  have hz' : (Reading.ofText names back).length ≤ u.script.size := by
    rwa [hu, List.length_map] at hz
  have hd := displaced_extend (s := base) (k := k) (n := n) ⟨rfl, h.failure, h.halted, h.finished⟩
    hl rfl hz'
  rw [hbase] at hd
  let fresh := ofText names back u.bindings
  let below : Dialogue := ⟨u.script.flushed.cleared, u.bindings⟩
  have hd : Displaced _ fresh.script below.script := hd
  have hdown := serve_displaced (Script.sound_ofText names back) hd rfl qs
  have hstale := serve_stale (d := ⟨u.script.flushed, u.bindings⟩) h.sound.flushed none 0 qs
  exact ⟨hstale.1.symm.trans hdown.1, hstale.2.symm.trans hdown.2⟩

theorem exhausted_of_skips {s u : Script} {skipped : List Reading} {stop : Token}
    (h : s.Skips u skipped) (ha : u.ahead = [stop]) (hu : u.unread = []) : Exhausted u.flushed where
  ahead := ⟨stop, ha⟩
  queue := rfl
  failure := h.failure
  halted := h.halted.trans h.finished.symm
  unread := by
    show Reading.diagnostics u.unread = []
    rw [hu]
    rfl

theorem follows_nothing {s : Script} {u : Dialogue} {skipped : List Reading} {stop : Token}
    (names : NameGrammar) (k : Nat) (h : s.Skips u.script skipped) (ha : u.script.ahead = [stop])
    (hu : u.script.unread = []) :
    Follows u (Reading.diagnostics skipped) k (ofText names "" u.bindings) := by
  apply follows_of_flushed h.queue
  intro qs
  have he : Exhausted u.script.flushed := exhausted_of_skips h ha hu
  have he' : Exhausted (Script.ofText names "") := ⟨⟨_, rfl⟩, rfl, rfl, rfl, rfl⟩
  have h₁ := serve_of_exhausted (d := ⟨u.script.flushed, u.bindings⟩) h.sound.flushed he qs
  have h₂ := serve_of_exhausted (d := ofText names "" u.bindings) (Script.sound_ofText names "") he' qs
  have hidle : ∀ q, (idle q).down k = idle q := by
    intro q
    cases q <;> rfl
  constructor
  · rw [h₁.1, h₂.1, List.map_map]
    exact List.map_congr_left fun q _ => (hidle q).symm
  · exact h₁.2.trans h₂.2.symm

/-! ### Going on behind the line that failed -/

/-- The lexical diagnostic that an answer hands over, if it hands over one. -/
def Answer.lexical? (a : Answer) : Option Diagnostic := a.handed?.bind Pulled.lexical?

/-- When the answers `as` had been given, the dialogue `d` had failed at the diagnostic `e`. It goes
on as `u`. The text up to the end of the failing line is `front`, and `back` is the text behind. Of
the readings in front, those `done` had been made before, and those `skipped` were made to recover. -/
structure Resumes (names : NameGrammar) (source : String) (as : List Answer) (d u : Dialogue)
    (e : Diagnostic) (front back : String) (done skipped : List Reading) : Prop where
  failed : (as.filterMap Answer.handed?).getLast? = some (.failure e)
  text : source = front ++ back
  /-- The failing line ends with a line break, or it is the last one. -/
  line : Ended front.toList ∧ Parts front.toList back.toList ∧
      lineBreaks front.toList = e.span.start.line ∨
    back = "" ∧ lineBreaks front.toList + 1 = e.span.start.line
  readings : Reading.text (done ++ skipped) = front.toList
  unread : Reading.ofText names source = done ++ d.script.unread ∧
    d.script.unread = skipped ++ u.script.unread
  /-- The diagnostics of what was skipped had not been handed over. -/
  reported : as.filterMap Answer.lexical? = Reading.diagnostics done
  bindings : u.bindings = d.bindings
  /-- They come first, and then what a fresh dialogue about the text behind gives. -/
  follows : Follows u (Reading.diagnostics skipped) (lineBreaks front.toList)
    (ofText names back d.bindings)

theorem lexical?_handed (as : List Answer) :
    (as.filterMap Answer.handed?).filterMap Pulled.lexical? = as.filterMap Answer.lexical? :=
  List.filterMap_filterMap

/-- Where the failing line and the text behind it are parted. -/
theorem exists_follows {front line more : List Reading} {before body : List Token} {stop : LineEnd}
    {skipped : List Reading}
    (h : InRow (Reading.ofText names source) front line more before (body ++ [stop.1]) d.script)
    (hs : d.script.Sound) (hsize : d.script.size = (Reading.ofText names source).length)
    (hskips : d.script.Skips (d.script.resumed body stop) skipped) :
    (d.script.resumed body stop).unread = more ∧ ∃ left right : String, source = left ++ right ∧
      Reading.text front = left.toList ∧
      (Ended left.toList ∧ Parts left.toList right.toList ∧
          lineBreaks left.toList = 1 + newLines before ∨
        right = "" ∧ lineBreaks left.toList + 1 = 1 + newLines before) ∧
      Follows ⟨d.script.resumed body stop, d.bindings⟩ (Reading.diagnostics skipped)
        (lineBreaks left.toList) (ofText names right d.bindings) := by
  have hbreaks := h.lineBreaks_front
  -- the row ended with a line break, behind which a text is left, or the text ends here
  rcases h.resumed hs with ⟨hk, hl, hu, -⟩ | ⟨hk, line', hr⟩
  · obtain ⟨init, r, hfront, hi⟩ := h.exists_last
    have hwhole : Reading.ofText names source = init ++ r :: more := by
      rw [h.whole, hfront, List.append_assoc]
      rfl
    obtain ⟨left, right, n, hsource, hleft, hended, hparts, hmore⟩ :=
      Reader.exists_of_ofText_eq hwhole hi hk
    rw [← hfront] at hleft
    rw [newLines_singleton, if_pos hk, ← hleft] at hbreaks
    have hz : (d.script.resumed body stop).unread.length ≤ (d.script.resumed body stop).size := by
      rw [hskips.size, hsize, hu, h.whole, List.length_append]
      omega
    refine ⟨hu, left, right, hsource, hleft.symm, .inl ⟨hended, hparts, by omega⟩, ?_⟩
    exact follows_ofText hskips hl (hu.trans hmore) hz
  · have hmore : more = [] := h.more_eq_nil hk
    have hlegal : AllLegal d.script.ahead (Feed.skipMoves body stop) := by
      rw [h.ahead_eq]
      exact (allLegal_skipMoves stop h.isRow.body_inside).append_right _
    have hline : line' = [] := hr.line_eq_nil (Script.resumed_lookahead_ne_nil hs hlegal hk)
    have hu : (d.script.resumed body stop).unread = [] := by rw [hr.unread, hline, hmore]; rfl
    have hfront : Reading.text front = source.toList := by
      have hwhole := h.whole
      rw [hmore, List.append_nil] at hwhole
      rw [← hwhole]
      exact Reading.flatMap_chars_ofText names source
    have hahead := hr.ahead_eq
    rw [hfront, newLines_singleton, if_neg (by simp [hk])] at hbreaks
    rw [hmore] at hahead
    refine ⟨hu.trans hmore.symm, source, "", String.append_empty.symm, hfront,
      .inr ⟨rfl, by omega⟩, ?_⟩
    exact follows_nothing names _ hskips hahead hu

/-- A dialogue that failed recovers, and goes on behind the failing line. -/
theorem exists_resumes {as : List Answer} (hs : d.script.Sound)
    (h : d.script.Standing (Reading.ofText names source)) (hf : Flags true d.script)
    (htold : d.script.told = as.filterMap Answer.handed?) :
    ∃ u e front back done skipped, d.answer .recover = (.recovered true, u) ∧
      Resumes names source as d u e front back done skipped := by
  obtain ⟨hh, hn, -⟩ := hf.fails.mp rfl
  obtain ⟨done, hdone, hrep⟩ := h.reported
  obtain ⟨front, line, more, before, row, hrow, hstands⟩ := h.row
  obtain ⟨e, t, rest, hlast, hrowt, hspan⟩ := hstands hh hn
  have hline : e.span.start.line = 1 + newLines before := by
    rw [hspan]
    exact (hrowt ▸ hrow).line_eq
  obtain ⟨body, stop, rfl⟩ := hrow.exists_stop
  obtain ⟨hr, skipped, hskips⟩ := exists_skips hrow hs hf
  obtain ⟨hmore, left, right, hsource, hleft, hplace, hfollows⟩ :=
    exists_follows hrow hs h.size hskips
  have hfront : done ++ skipped = front := by
    have hw := hdone.symm.trans hrow.whole
    rw [hskips.unread, hmore, ← List.append_assoc] at hw
    exact List.append_cancel_right hw
  refine ⟨_, e, left, right, done, skipped, hr, htold ▸ hlast, hsource, hline ▸ hplace,
    by rw [hfront, hleft], ⟨hdone, hskips.unread⟩, ?_, rfl, hfollows⟩
  rw [← lexical?_handed, ← htold, hrep]

end Dialogue

/-! ### The end of the input -/

/-- If the script has come to its end, nothing is left but the end of the input, and nothing is left
to be read. -/
def Script.StopsAtEnd (s : Script) : Prop := s.finished = true → s.AtEnd ∧ s.unread = []

theorem Round.stopsAtEnd {standIn : Span → Number} {b b' : Bindings} {s t : Script}
    (h : Round standIn b s b' t) (hs : s.Sound) (hst : s.Standing (Reading.ofText names source))
    (hn : s.finished = false) : t.StopsAtEnd := by
  intro hfin
  obtain ⟨front, line, more, before, row, hrow, -⟩ := hst.row
  rcases h.row_cases hs hrow.ahead_eq hrow.isRow with
    ⟨l, hl, rfl, p, ⟨-, rfl⟩ | ⟨hres, -, rfl⟩⟩ | ⟨x, -, -, p, -, rfl⟩
  · rw [p.finished, hn] at hfin
    cases hfin
  · have hend := Line.kind_stop_of_result hres
    cases l with
    | full c stop => cases hres
    | blank stop =>
      rcases hrow.acts_line ⟨b, standIn⟩ hs hl with ⟨hk, -⟩ | ⟨hk, line', hrow'⟩
      · rw [hend] at hk
        cases hk
      · have hmoves : (Line.blank stop).moves ⟨b, standIn⟩ = [.clear, .look 0] :=
          congrArg (Move.clear :: ·) (LineEnd.moves_of_endOfInput hk)
        have hne : (s.acts ((Line.blank stop).moves ⟨b, standIn⟩)).lookahead ≠ [] := by
          rw [hmoves]
          exact Script.act_look_lookahead_ne_nil (s := s.cleared) hs.length_ahead_pos
        exact ⟨hrow'.atEnd hk, (hrow'.eq_of_endOfInput hk hne).2⟩
  · have hfin' : (s.acts (x.moves ⟨b, standIn⟩)).finished = true := hfin
    rw [p.finished, hn] at hfin'
    cases hfin'

namespace Dialogue

theorem stopsAtEnd_answer {f : Bool} (hst : d.script.Standing (Reading.ofText names source))
    (hf : Flags f d.script) (hs : d.script.Sound) (h : d.script.StopsAtEnd) (q : Request) :
    (d.answer q).2.script.StopsAtEnd := by
  cases q with
  | next =>
    obtain ⟨b', t, hr, -, ha⟩ := exists_rounds_answer hs
    obtain ⟨-, -, ht⟩ := hr.induct
      (P := fun _ t => t.Standing (Reading.ofText names source) ∧ Flags f t ∧ t.StopsAtEnd) hs
      (fun hs hr ⟨hst, hf, _⟩ => ⟨hst.round hs hr, flags_round hs hr hf,
        hr.stopsAtEnd hs hst (flags_of_due hf hr.due).1⟩) ⟨hst, hf, h⟩
    obtain ⟨queue, failure, hover⟩ := t.exists_handOver_eq
    rw [ha, hover]
    exact ht
  | recover =>
    rcases answer_recover_cases hs with hr | ⟨-, hn, body, rest, stop, -, -, p, hr⟩
    · rw [hr]
      exact h
    · rw [hr]
      intro hfin
      have hfin' : (d.script.pardoned.acts (Feed.skipMoves body stop)).finished = true := hfin
      rw [p.finished] at hfin'
      cases hn.symm.trans hfin'

theorem stopsAtEnd_serve {f : Bool} (hst : d.script.Standing (Reading.ofText names source))
    (hf : Flags f d.script) (hs : d.script.Sound) (h : d.script.StopsAtEnd) (qs : List Request) :
    (d.serve qs).2.script.StopsAtEnd := by
  induction qs generalizing d f with
  | nil => exact h
  | cons q qs ih =>
    exact ih (standing_answer hs hst q) (flags_answer hs hf q) (sound_answer hs q)
      (stopsAtEnd_answer hst hf hs h q)

/-! ### The contract -/

/-- What a script promises when the answers `as` were given and the dialogue is `d` afterwards. For
this the statements that are `met` were evaluated. Some of it is promised only to those who are
orderly. -/
structure Contract (names : NameGrammar) (source : String) (orderly : Prop)
    (met : Bindings → Script → Prop) (as : List Answer) (d : Dialogue) : Prop where
  /-- What was told was handed over exactly once, in its order, or waits. -/
  delivered : orderly → Delivered as d.script
  /-- Every statement that failed has told what it put out, and then its fatal diagnostic. -/
  failed : ∀ b s, met b s → ∀ e w, Work.statement (fun _ => .int 0) ⟨s, b⟩ = .error (.fatal e) w →
    s.told ++ w.script.queue.map .output ++ [.failure e] <+: d.script.told
  /-- No other failure was told. -/
  justified : ∀ before e after, d.script.told = before ++ .failure e :: after →
    ∃ b s w, met b s ∧ Work.statement (fun _ => .int 0) ⟨s, b⟩ = .error (.fatal e) w ∧
      before = s.told ++ w.script.queue.map .output
  /-- What waits is what the next requests are answered with. -/
  waiting : d.serve (List.replicate (waiting d.script).length .next) =
    ((waiting d.script).map .pulled, { d with script := d.script.flushed.pardoned })
  /-- From a fatal diagnostic on there is nothing more, and nothing changes. -/
  silent : failing as = true →
    ∀ n, d.serve (List.replicate n .next) = (List.replicate n (.pulled .nothing), d)
  /-- A script that failed goes on behind the failing line. -/
  resumes : orderly → failing as = true →
    ∃ u e front back done skipped, d.answer .recover = (.recovered true, u) ∧
      Resumes names source as d u e front back done skipped
  /-- No other script recovers. -/
  refuses : orderly → failing as = false → d.script.failure = none →
    (d.answer .recover).1 = .recovered false
  /-- A request to recover that is refused changes nothing. -/
  refused : (d.answer .recover).1 = .recovered false → (d.answer .recover).2 = d
  /-- When there is nothing more, and no fatal diagnostic is the reason, then the end of the input
  has been reached, and all was read. There is nothing more forever, and nothing changes. -/
  ended : failing as = false → (d.answer .next).1 = .pulled .nothing →
    (d.answer .next).2.script.finished = true ∧
      (d.answer .next).2.script.AtEnd ∧ (d.answer .next).2.script.unread = [] ∧
      ∀ qs, (d.answer .next).2.serve qs = (qs.map idle, (d.answer .next).2)

theorem answer_recover_refused (hs : d.script.Sound)
    (h : (d.answer .recover).1 = .recovered false) : (d.answer .recover).2 = d := by
  rcases answer_recover_cases hs with hr | ⟨-, -, body, rest, stop, -, -, -, hr⟩
  · rw [hr]
  · rw [hr] at h
    cases h

/-- **Whatever is asked of the script of a text, the contract holds.** Orderly are those who do not
recover while a fatal diagnostic waits. -/
theorem contract_serve (names : NameGrammar) (source : String) (bindings : Bindings)
    (qs : List Request) :
    Contract names source ((ofText names source bindings).Orderly qs)
      ((ofText names source bindings).Meets qs)
      ((ofText names source bindings).serve qs).1 ((ofText names source bindings).serve qs).2 := by
  have hs₀ := Script.sound_ofText names source
  have hflags : Flags (failing ([] ++ ((ofText names source bindings).serve qs).1)) _ :=
    flags_serve (d := ofText names source bindings) hs₀ (flags_ofText names source) qs
  have hs : ((ofText names source bindings).serve qs).2.script.Sound := sound_serve hs₀ qs
  have hstands : ((ofText names source bindings).serve qs).2.script.Standing _ :=
    standing_serve hs₀ (.ofText names source) qs
  have hdelivered : (ofText names source bindings).Orderly qs →
      Delivered ((ofText names source bindings).serve qs).1
        ((ofText names source bindings).serve qs).2.script := fun ho =>
    delivered_serve hs₀ ho (show Delivered [] _ from rfl)
  have hfailed : ∀ b s, (ofText names source bindings).Meets qs b s → ∀ e w,
      Work.statement (fun _ => .int 0) ⟨s, b⟩ = .error (.fatal e) w →
      s.told ++ w.script.queue.map .output ++ [.failure e] <+:
        ((ofText names source bindings).serve qs).2.script.told :=
    fun _ _ h _ _ he => told_of_meets hs₀ h he
  have hjustified := justified_serve (d := ofText names source bindings) hs₀ (fun _ => nofun) qs
  have hstops := stopsAtEnd_serve (d := ofText names source bindings) (.ofText names source)
    (flags_ofText names source) hs₀ nofun qs
  rw [List.nil_append] at hflags
  -- the clauses speak of what was answered, and of the dialogue that is left
  generalize ((ofText names source bindings).serve qs).1 = as at hflags hdelivered
  unfold Justified at hjustified
  generalize ((ofText names source bindings).serve qs).2 = d at *
  constructor
  case delivered => exact hdelivered
  case failed => exact hfailed
  case justified => exact hjustified
  case waiting => exact serve_waiting d
  case silent =>
    intro hf n
    exact serve_of_failing (hf ▸ hflags) n
  case resumes =>
    intro ho hf
    rw [hf] at hflags
    have htold := hdelivered ho
    rw [Delivered, Dialogue.waiting, hflags.queue rfl, (hflags.fails.mp rfl).2.2] at htold
    exact exists_resumes hs hstands hflags (by simpa using htold)
  case refuses =>
    intro _ hf hfail
    rw [hf] at hflags
    rw [answer_recover_of_false]
    cases hh : d.script.halted with
    | false => exact .inl rfl
    | true =>
      right
      cases hn : d.script.finished with
      | true => rfl
      | false => cases hflags.fails.mpr ⟨hh, hn, hfail⟩
  case refused => exact answer_recover_refused hs
  case ended =>
    intro hf hn
    obtain ⟨hfin, hidle⟩ := serve_of_nothing hs (hf ▸ hflags) hn
    obtain ⟨hend, hread⟩ := stopsAtEnd_answer hstands hflags hs hstops .next hfin
    exact ⟨hfin, hend, hread, hidle⟩

theorem Answer.eq_nothing {a : Answer} (h : (a matches .pulled .nothing) = true) :
    a = .pulled .nothing := by
  split at h
  · rfl
  · cases h

/-- A line that fails at its end, and one behind it: after the first request the dialogue has failed,
and after two more there is nothing left. -/
theorem contract_serve_dangling :
    let source := "1 +\n2"
    let d := ofText .free source {}
    let failed := d.serve [.next]
    let ended := d.serve [.next, .recover, .next]
    (d.Orderly [.next] ∧ failing failed.1 = true ∧
      (∃ e w, d.Meets [.next] {} d.script ∧
        Work.statement (fun _ => .int 0) ⟨d.script, {}⟩ = .error (.fatal e) w) ∧
      Contract .free source (d.Orderly [.next]) (d.Meets [.next]) failed.1 failed.2) ∧
    d.Orderly [.next, .recover, .next] ∧ failing ended.1 = false ∧
      ended.2.script.failure = none ∧ (ended.2.answer .next).1 = .pulled .nothing ∧
      Contract .free source (d.Orderly [.next, .recover, .next]) (d.Meets [.next, .recover, .next])
        ended.1 ended.2 := by
  intro source d failed ended
  have hwaits : (d.answer .next).2.script.failure = none :=
    Option.isNone_iff_eq_none.mp (by decide +kernel)
  have hmeets : d.Meets [.next] {} d.script :=
    ⟨⟨rfl, rfl, rfl⟩, [], List.prefix_refl _, .refl _ _⟩
  obtain ⟨e, w, hw⟩ : ∃ e w, Work.statement (fun _ => .int 0) ⟨d.script, {}⟩ = .error (.fatal e) w :=
    Work.exists_fatal (by decide +kernel)
  have hnothing : (ended.2.answer .next).1 = .pulled .nothing :=
    Answer.eq_nothing (by decide +kernel)
  have hnext : Request.next ≠ .recover := by decide
  have hfirst : d.Orderly [.next] := ⟨fun h => absurd h hnext, trivial⟩
  have horderly : d.Orderly [.next, .recover, .next] :=
    ⟨fun h => absurd h hnext, fun _ => hwaits, fun h => absurd h hnext, trivial⟩
  exact ⟨⟨hfirst, by decide +kernel, ⟨e, w, hmeets, hw⟩, contract_serve .free source {} _⟩,
    horderly, by decide +kernel, Option.isNone_iff_eq_none.mp (by decide +kernel), hnothing,
    contract_serve .free source {} _⟩

end Dialogue

end LineCalc
