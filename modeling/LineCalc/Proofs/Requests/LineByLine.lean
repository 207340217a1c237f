import LineCalc.Proofs.Requests.Agreeing

/-!
# No further than the line at hand

Whatever is asked of a script, what it hands over comes from the last line that it evaluated. Nothing
behind this line was read, and what was stored so far is what a run stores that keeps going over the
lines up to this one. So another text with the same first lines gives the same up to then.
-/

namespace LineCalc

open Grammar Move Script

variable {names : NameGrammar} {source : String} {b b' b₀ : Bindings} {s t s₀ : Script} {k n : Nat}
variable {m : List Move}

/-! ### What waits has no effect on what is done -/

namespace Script

/-- The script with more waiting in front of its queue. -/
def preceded (s : Script) (os : List Output) : Script := { s with queue := os ++ s.queue }

variable {os : List Output}

theorem report_preceded (s : Script) (d : Diagnostic) :
    (s.preceded os).report d = (s.report d).preceded os := by
  simp [report, preceded, logged]

theorem absorb_preceded (s : Script) (r : Reading) :
    (s.preceded os).absorb r = (s.absorb r).preceded os := by
  obtain ⟨chunks, item⟩ := r
  cases item with
  | ok t => rfl
  | error d =>
    exact report_preceded { s with
      readTally := s.readTally + Reading.tally ⟨chunks, .error d⟩
      log := (chunks.map Chunk.event).reverse ++ s.log } d

theorem fillFrom_preceded (n : Nat) (rs : List Reading) (s : Script) :
    (s.preceded os).fillFrom n rs = (s.fillFrom n rs).map (preceded · os) := by
  induction rs generalizing s with
  | nil =>
    show s.lookahead.getLast?.map _ = (s.lookahead.getLast?.map _).map _
    rw [Option.map_map]
    rfl
  | cons r rs ih =>
    rw [fillFrom, fillFrom]
    by_cases hn : n < s.lookahead.length
    · rw [if_pos hn, if_pos (show n < (s.preceded os).lookahead.length from hn)]
      rfl
    · rw [if_neg hn, if_neg (show ¬n < (s.preceded os).lookahead.length from hn), absorb_preceded, ih]

theorem act_preceded (x : Move) (s : Script) : (s.preceded os).act x = (s.act x).preceded os := by
  have hfill : ∀ n, ((s.preceded os).fillFrom n (s.preceded os).unread).getD (s.preceded os) =
      ((s.fillFrom n s.unread).getD s).preceded os := by
    intro n
    show ((s.preceded os).fillFrom n s.unread).getD _ = _
    rw [fillFrom_preceded]
    cases s.fillFrom n s.unread <;> rfl
  cases x with
  | look n => exact hfill n
  | take tok => exact congrArg (shift · tok) (hfill 0)
  | report d => exact report_preceded s d
  | print value => simp [act, print, preceded, logged]
  | _ => rfl

theorem acts_preceded (m : List Move) (s : Script) : (s.preceded os).acts m = (s.acts m).preceded os := by
  induction m generalizing s with
  | nil => rfl
  | cons x m ih => rw [acts_cons, acts_cons, act_preceded, ih]

/-- When a line that failed is skipped, what waits already makes no difference. -/
theorem flushed_resumed (s : Script) (body : List Token) (stop : LineEnd) :
    (s.resumed body stop).flushed = (s.flushed.resumed body stop).flushed := by
  have hs : s.pardoned = s.flushed.pardoned.preceded s.queue := by
    show { s with failure := none } = { s with queue := s.queue ++ [], failure := none }
    rw [List.append_nil]
  rw [resumed, hs, acts_preceded]
  rfl

end Script

/-! ### What was stored -/

/-- A run that keeps going and starts with `s` goes through `t` if it gets on. -/
def Continues (b : Bindings) (s : Script) (b' : Bindings) (t : Script) : Prop :=
  ∀ {os c b'' u}, Runs true (fun _ => .int 0) b' t os c b'' u →
    ∃ os', Runs true (fun _ => .int 0) b s os' c b'' u

/-- The script `s` is `t` when all that waits was handed over and the line that failed was skipped. -/
inductive Settles (s : Script) : Script → Prop where
  | running (hh : s.halted = false) (hf : s.finished = false) : Settles s s.flushed.pardoned
  | failed {body rest : List Token} {stop : LineEnd} (hh : s.halted = true) (hf : s.finished = false)
      (ha : s.ahead = body ++ stop.1 :: rest) (hb : ∀ t ∈ body, t.kind.endsLine = false) :
      Settles s (s.resumed body stop).flushed
  | finished {t : Script} (hh : s.halted = true) (hf : s.finished = true) (ht : t.Sound)
      (he : t.AtEnd) : Settles s t

theorem Script.Due.flushed_pardoned (h : s.Due) : s.flushed.pardoned = s := by
  show { s with queue := [], failure := none } = s
  rw [← h.queue, ← h.failure]

theorem Script.flushed_pardoned_eq (h : s.failure = none) : s.flushed.pardoned = s.flushed := by
  have hnone : s.flushed.failure = none := h
  rw [pardoned, ← hnone]

theorem Script.Sound.atEnd_of_result (hs : s.Sound) {scope : Scope} {l : Line} {rest : List Token}
    (ha : s.ahead = l.tokens ++ rest) (h : l.result scope = none) : s.AtEnd := by
  have hk := Line.kind_stop_of_result h
  cases l with
  | full c stop => cases h
  | blank stop =>
    obtain ⟨before, last, he, -, hinside⟩ := hs.ends
    cases before with
    | nil => exact ⟨last, he⟩
    | cons a before =>
      obtain ⟨rfl, -⟩ := List.cons.inj (he.symm.trans ha)
      exact absurd hk (hinside _ List.mem_cons_self)

/-- A turn of the loop is a step of the run. -/
theorem Round.exists_settles (h : Round (fun _ => .int 0) b s b' t) (hs : s.Sound)
    (hf : s.finished = false) : ∃ t', Settles t t' ∧ Continues b s b' t' := by
  have hdue := h.due
  obtain ⟨row, rest, ha, hrow⟩ := hs.exists_row
  -- the same three cases as for the rows of a run that keeps going
  rcases h.row_cases hs ha hrow with
    ⟨l, hl, rfl, p, ⟨hres, rfl⟩ | ⟨hres, rfl, rfl⟩⟩ | ⟨x, hx, rfl, p, rfl, rfl⟩
  · refine ⟨_, .running (p.halted.trans hdue.halted) (p.finished.trans hf), fun hr => ?_⟩
    rw [Script.flushed_pardoned_eq (p.failure.trans hdue.failure)] at hr
    exact ⟨_, .pass (.of_line true l hl ha hs.room hres) hr⟩
  · exact ⟨s, .finished rfl rfl hs (hs.atEnd_of_result ha hres), fun hr => ⟨_, hr⟩⟩
  · obtain ⟨body, stop, hend, hstop, hb⟩ := (x.tokens_eq ▸ hrow).of_append (List.cons_ne_nil _ _)
    have hahead : (s.acts (x.moves ⟨b', fun _ => .int 0⟩)).ahead =
        body ++ (⟨stop, hstop⟩ : LineEnd).1 :: rest := by
      refine p.ahead_eq ?_
      rw [ha, x.tokens_eq, x.taken_moves, hend]
      simp
    refine ⟨_, .failed rfl (p.finished.trans hf) hahead hb, fun hr => ?_⟩
    have hskipped : (((s.acts (x.moves ⟨b', fun _ => .int 0⟩)).halt x.diagnostic).resumed body
        ⟨stop, hstop⟩).flushed = (s.skipped ⟨b', fun _ => .int 0⟩ x body ⟨stop, hstop⟩).flushed := by
      rw [flushed_resumed]
      rfl
    rw [hskipped] at hr
    exact ⟨_, .pass (.of_slip x hx ha hs.room hf ⟨stop, hstop⟩ hend hb) hr⟩

/-- Where the run stands that keeps going over the lines which were evaluated so far. -/
def Shadows (b₀ : Bindings) (s₀ : Script) (b : Bindings) (s : Script) : Prop :=
  ∃ t, Settles s t ∧ Continues b₀ s₀ b t

theorem Shadows.start (h : s.Ready) : Shadows b s b s := by
  refine ⟨_, .running h.halted h.finished, fun hr => ?_⟩
  rw [h.due.flushed_pardoned] at hr
  exact ⟨_, hr⟩

theorem Shadows.round (h : Shadows b₀ s₀ b s) (hs : s.Sound)
    (hr : Round (fun _ => .int 0) b s b' t) : Shadows b₀ s₀ b' t := by
  have hdue := hr.due
  obtain ⟨u, hu, hc⟩ := h
  cases hu with
  | running hh hf =>
    rw [hdue.flushed_pardoned] at hc
    obtain ⟨t', ht, hc'⟩ := hr.exists_settles hs hf
    refine ⟨t', ht, fun hrun => ?_⟩
    obtain ⟨os, hrun'⟩ := hc' hrun
    exact hc hrun'
  | failed hh | finished hh => exact absurd hdue (not_due_of_halted hh)

theorem Shadows.handOver (h : Shadows b₀ s₀ b s) : Shadows b₀ s₀ b s.handOver.2 := by
  obtain ⟨u, hu, hc⟩ := h
  obtain ⟨queue, failure, he⟩ := s.exists_handOver_eq
  rw [he]
  cases hu with
  | running hh hf => exact ⟨_, .running hh hf, hc⟩
  | @failed body rest stop hh hf ha hb =>
    refine ⟨_, .failed (s := { s with queue, failure }) hh hf ha hb, ?_⟩
    rw [flushed_resumed] at hc ⊢
    exact hc
  | finished hh hf ht he => exact ⟨u, .finished hh hf ht he, hc⟩

namespace Dialogue

variable {d : Dialogue} {qs : List Request} {bindings : Bindings}

theorem shadows_answer (hs : d.script.Sound) (h : Shadows b₀ s₀ d.bindings d.script) (q : Request) :
    Shadows b₀ s₀ (d.answer q).2.bindings (d.answer q).2.script := by
  cases q with
  | next =>
    obtain ⟨b', t, hr, -, ha⟩ := exists_rounds_answer hs
    rw [ha]
    exact (hr.induct (P := fun b s => Shadows b₀ s₀ b s) hs (fun hs hr h => h.round hs hr) h).handOver
  | recover =>
    obtain ⟨u, hu, hc⟩ := h
    -- only a script that failed in a row recovers, and then it is where the run passed the row
    cases hu with
    | running hh hf =>
      rw [answer_recover_of_false (.inl hh)]
      exact ⟨_, .running hh hf, hc⟩
    | finished hh hf ht he =>
      rw [answer_recover_of_false (.inr hf)]
      exact ⟨u, .finished hh hf ht he, hc⟩
    | @failed body rest stop hh hf ha hb =>
      obtain ⟨p, hr⟩ := exists_answer_recover hs hh hf stop ha hb
      rw [hr]
      refine ⟨_, .running rfl (p.finished.trans hf), ?_⟩
      have hnone : (d.script.resumed body stop).failure = none := p.failure
      show Continues b₀ s₀ d.bindings (d.script.resumed body stop).flushed.pardoned
      rw [Script.flushed_pardoned_eq hnone]
      exact hc

/-- Whatever is asked, a run that keeps going goes through the same lines. -/
theorem shadows_serve (hs : d.script.Sound) (h : Shadows b₀ s₀ d.bindings d.script)
    (qs : List Request) : Shadows b₀ s₀ (d.serve qs).2.bindings (d.serve qs).2.script := by
  induction qs generalizing d with
  | nil => exact h
  | cons q qs ih => exact ih (sound_answer hs q) (shadows_answer hs h q)

end Dialogue

theorem Settles.sound (h : Settles s t) (hs : s.Sound) : t.Sound := by
  cases h with
  | running => exact ⟨hs.ends, hs.wellFormed, hs.lexical, hs.room⟩
  | finished hh hf ht he => exact ht
  | @failed body rest stop hh hf ha hb =>
    obtain ⟨p, -⟩ := Dialogue.exists_answer_recover (d := ⟨s, {}⟩) hs hh hf stop ha hb
    have ht := hs.pardoned.progress p
    exact ⟨ht.ends, ht.wellFormed, ht.lexical, ht.room⟩

theorem Shadows.bindings_run (h : Shadows b₀ (.ofText names source) b s) (hs : s.Sound)
    (hend : ∀ t, Settles s t → t.AtEnd) :
    (Session.run ⟨{ names, keepGoing := true }, b₀⟩ source).2.bindings = b := by
  obtain ⟨t, ht, hc⟩ := h
  obtain ⟨stop, ha⟩ := hend t ht
  obtain ⟨u, hu, -⟩ := (ht.sound hs).exists_statement_end ⟨b, fun _ => .int 0⟩ ha
  obtain ⟨os, hrun⟩ := hc (.last (.done (Work.statement_finished.mpr hu)))
  rw [Session.run_eq hrun]

/-! ### The end of the lines -/

/-- Two rows that stand in front of the same tokens are one. -/
theorem eq_of_body_stop {body body' rest rest' : List Token} {stop stop' : LineEnd}
    (h : body ++ stop.1 :: rest = body' ++ stop'.1 :: rest')
    (hb : ∀ t ∈ body, t.kind.endsLine = false) (hb' : ∀ t ∈ body', t.kind.endsLine = false) :
    body = body' ∧ stop.1 = stop'.1 ∧ rest = rest' := by
  -- the first token that ends a line ends both rows
  induction body generalizing body' with
  | nil =>
    cases body' with
    | nil =>
      obtain ⟨hs, hr⟩ := List.cons.inj h
      exact ⟨rfl, hs, hr⟩
    | cons a body' =>
      obtain ⟨rfl, -⟩ := List.cons.inj h
      have := hb' stop.1 List.mem_cons_self
      rw [stop.2] at this
      cases this
  | cons a body ih =>
    cases body' with
    | nil =>
      obtain ⟨rfl, -⟩ := List.cons.inj h
      have := hb stop'.1 List.mem_cons_self
      rw [stop'.2] at this
      cases this
    | cons a' body' =>
      obtain ⟨rfl, htail⟩ := List.cons.inj h
      rw [List.forall_mem_cons] at hb hb'
      obtain ⟨rfl, hs, hr⟩ := ih htail hb.2 hb'.2
      exact ⟨rfl, hs, hr⟩

namespace Reading

variable {rs rs' more more' : List Reading}

theorem TakesLines.eq_of_append (h : TakesLines k rs) (h' : TakesLines k rs')
    (he : rs ++ more = rs' ++ more') : rs = rs' ∧ more = more' := by
  have hp := (h.isPrefix h' he (Nat.le_refl k)).sublist
  obtain rfl := hp.antisymm (h'.isPrefix h he.symm (Nat.le_refl k)).sublist
  exact ⟨rfl, List.append_cancel_left he⟩

/-- A text does not have more lines than line breaks in front of its last one. -/
theorem TakesLines.le_lineBreaks (h : TakesLines k rs) (he : ofText names source = rs ++ more) :
    k ≤ lineBreaks source.toList := by
  have hall : ofText names source = ofText names source ++ [] := (List.append_nil _).symm
  have hlines := lineBreaks_text hall
  rw [show text (ofText names source) = source.toList from flatMap_chars_ofText names source, he,
    tokens_append, newLines_append, h.lines] at hlines
  omega

/-- A text that ends with its last line is read in the same way whatever follows. -/
theorem exists_beginning (names : NameGrammar) {u : List Char} (hu : u = [] ∨ Ended u) :
    ∃ rs place, (∀ r ∈ rs, r.Proper) ∧ TakesLines (lineBreaks u) rs ∧
      ofText names (.ofList u) = rs ++ [⟨[], .ok (endToken place)⟩] ∧
      ∀ v, Parts u v → ∃ more, ofText names (.ofList (u ++ v)) = rs ++ more := by
  have hfront : (String.ofList u).toList = u := String.toList_ofList
  have hended : (String.ofList u).toList = [] ∨ Ended (String.ofList u).toList := by rwa [hfront]
  have hparts : Parts (String.ofList u).toList ("" : String).toList := by
    rw [Parts]
    simp
  obtain ⟨rs, place, n, h₁, -, hlast⟩ := ofText_append names hended hparts
  obtain ⟨rs', chunks, place', h₁', hproper⟩ := exists_of_ofText names (.ofList u)
  obtain ⟨rfl, -⟩ := List.append_inj' (h₁'.symm.trans h₁) rfl
  have htext : text rs' = u := by
    have hwhole : text (ofText names (.ofList u)) = u :=
      (flatMap_chars_ofText names (.ofList u)).trans hfront
    rw [h₁, text_append] at hwhole
    exact (List.append_nil _).symm.trans hwhole
  refine ⟨rs', place, hproper, ⟨?_, hlast⟩, h₁, fun v hv => ?_⟩
  · rw [← lineBreaks_text h₁, htext]
  · have hparts' : Parts (String.ofList u).toList (String.ofList v).toList := by
      rwa [hfront, String.toList_ofList]
    obtain ⟨rs₂, place₂, n₂, h₂, hboth, -⟩ := ofText_append names hended hparts'
    obtain ⟨rfl, -⟩ := List.append_inj' (h₁.symm.trans h₂) rfl
    exact ⟨_, by rw [String.ofList_append]; exact hboth⟩

end Reading

namespace Script.Behind

variable {rs more more' : List Reading} {source' : String}

/-- A script that has read nothing behind some whole lines stands where it would in another text that
begins with them. -/
theorem exists_line (h : s.Behind names source k) (he : Reading.ofText names source = rs ++ more)
    (hrs : Reading.TakesLines k rs) : ∃ line, s.unread = line ++ more ∧
      ∀ {source' more'} {t : Script}, Reading.ofText names source' = rs ++ more' →
        t.lookahead = s.lookahead → t.unread = line ++ more' → t.halted = s.halted →
        t.finished = s.finished → t.Behind names source' k := by
  have hle := hrs.le_lineBreaks he
  cases h with
  | passed hl hd hk hh hf =>
    obtain ⟨rfl, hu⟩ := hk.eq_of_append hrs (hd.symm.trans he)
    exact ⟨[], hu, fun he' hl' hu' hh' hf' =>
      .passed (hl'.trans hl) (hu' ▸ he') hk (hh'.trans hh) (hf'.trans hf)⟩
  | @ended front line more₁ before stop h hs hl hk hh =>
    have hrow : InRow (Reading.ofText names source) front line more₁ before ([] ++ [stop.1]) s := h
    have hlines := (hrow.text_front_of_endOfInput hs).2
    omega
  | @failed front line more₁ before body stop h hk hh hf =>
    rcases stop.kind_eq with hstop | hstop
    · obtain ⟨rfl, rfl⟩ := (hk ▸ h.takesLines hstop).eq_of_append hrs (h.whole.symm.trans he)
      refine ⟨line, h.unread, fun he' hl' hu' hh' hf' => ?_⟩
      exact .failed { h with
        whole := he'
        unread := hu'
        ahead := by rw [hl', h.ahead] } hk (hh'.trans hh) (hf'.trans hf)
    · have hlines := (h.text_front_of_endOfInput hstop).2
      omega

/-- Behind the last line of a text only its end is ahead, once a line that failed is skipped. -/
theorem atEnd (h : s.Behind names source k) (hs : s.Sound) (hst : Settles s t)
    (hk : k = lineBreaks source.toList + 1 ∨ ∃ rs r stop,
      Reading.ofText names source = rs ++ [r] ∧ r.item = .ok stop ∧ Reading.TakesLines k rs) :
    t.AtEnd := by
  -- behind the first `k` lines there is nothing but the end of the input
  have hend : ∀ {rs more}, Reading.ofText names source = rs ++ more → Reading.TakesLines k rs →
      ∃ stop, Reading.tokens more = [stop] := by
    intro rs more he hrs
    rcases hk with rfl | ⟨rs', r, stop, he', hr, hrs'⟩
    · have := hrs.le_lineBreaks he
      omega
    · obtain ⟨-, rfl⟩ := hrs.eq_of_append hrs' (he.symm.trans he')
      obtain ⟨chunks, item⟩ := r
      obtain rfl : item = .ok stop := hr
      exact ⟨stop, rfl⟩
  cases h with
  | passed hl hd hrs hh hf =>
    cases hst with
    | running =>
      obtain ⟨stop, hstop⟩ := hend hd hrs
      refine ⟨stop, ?_⟩
      show s.lookahead ++ Reading.tokens s.unread = _
      rw [hl, hstop]
      rfl
    | failed hh' | finished hh' => simp [hh] at hh'
  | ended h hstop hl hk' hh =>
    cases hst with
    | running => exact h.atEnd hstop
    | failed hh' hf' => simp [hh', hf'] at hh
    | finished hh' hf' ht he => exact he
  | @failed front line more before body stop h hk' hh hf =>
    cases hst with
    | running hh' => simp [hh] at hh'
    | finished hh' hf' => simp [hf] at hf'
    | @failed body' rest stop' hh' hf' ha hb =>
      obtain ⟨rfl, hstop, rfl⟩ :=
        eq_of_body_stop (h.ahead_eq_body.symm.trans ha) h.isRow.body_inside hb
      obtain rfl := Subtype.ext hstop
      obtain ⟨p, -⟩ := Dialogue.exists_answer_recover (d := ⟨s, {}⟩) hs hh hf stop ha hb
      have hahead := p.ahead
      rw [Feed.taken_skipMoves] at hahead
      change s.ahead = _ at hahead
      rcases stop.kind_eq with hkind | hkind
      · obtain ⟨last, hlast⟩ := hend h.whole (hk' ▸ h.takesLines hkind)
        rw [ha, hlast, LineEnd.taken_moves_of_newLine hkind, List.append_assoc] at hahead
        exact ⟨last, (List.cons.inj (List.append_cancel_left hahead)).2.symm⟩
      · rw [ha, h.more_eq_nil hkind, LineEnd.taken_moves_of_endOfInput hkind, List.append_assoc]
          at hahead
        exact ⟨stop.1, (List.append_cancel_left hahead).symm⟩

end Script.Behind

/-! ### The first lines settle the rest -/

/-- The first lines end with a line break, or are the whole text. -/
theorem FirstLines.cases {u text : List Char} (h : FirstLines k u text) :
    (∃ v, text = u ++ v ∧ (u = [] ∨ Ended u) ∧ Parts u v ∧ k = lineBreaks u) ∨
    u = text ∧ k = lineBreaks u + 1 := by
  cases h with
  | zero => exact .inl ⟨text, rfl, .inl rfl, Parts.nil_left text, rfl⟩
  | broken hu hp => exact .inl ⟨_, rfl, .inr hu, hp, rfl⟩
  | all => exact .inr ⟨rfl, rfl⟩

namespace Dialogue

variable {rs more more' : List Reading} {source' : String} {qs qs' : List Request}
variable {bindings : Bindings}

/-- The same answers were given, the same was stored, and as much was counted. -/
structure Alike (x y : List Answer × Dialogue) : Prop where
  answers : x.1 = y.1
  bindings : x.2.bindings = y.2.bindings
  readTally : x.2.script.readTally = y.2.script.readTally
  evalTally : x.2.script.evalTally = y.2.script.evalTally

theorem Alike.refl (x : List Answer × Dialogue) : Alike x x := ⟨rfl, rfl, rfl, rfl⟩

/-- If nothing behind some whole lines is read, it does not matter what stands there. -/
theorem exists_serve_beginning (hproper : ∀ r ∈ rs, r.Proper) (hrs : Reading.TakesLines k rs)
    (he : Reading.ofText names source = rs ++ more)
    (hle : more.length ≤ ((ofText names source bindings).serve qs).2.script.unread.length) :
    ∃ as core b, ∀ {source' more'}, Reading.ofText names source' = rs ++ more' →
      (ofText names source' bindings).serve qs =
        (as, ⟨Script.extend core more' (rs ++ more').length, b⟩) := by
  have hscript : ∀ {source' more'}, Reading.ofText names source' = rs ++ more' →
      Script.ofText names source' = (ofReadings rs).extend more' (rs ++ more').length := by
    intro source' more' he'
    exact (congrArg ofReadings he').trans (ofReadings_append rs more')
  have hs := sound_ofText names source
  rw [ofText, hscript he] at hle
  rw [hscript he] at hs
  obtain ⟨as, core, b, h⟩ :=
    exists_serve_extend qs (whole_ofReadings hproper hrs.last) hs hle
  refine ⟨as, core, b, fun {source' more'} he' => ?_⟩
  have hs' := sound_ofText names source'
  rw [hscript he'] at hs'
  rw [ofText, hscript he', h _ _ hs']

/-- A dialogue that touches no further line than `k` is the same for every text that begins with
these lines, and stands where it would in that text. -/
theorem alike_of_behind (hproper : ∀ r ∈ rs, r.Proper) (hrs : Reading.TakesLines k rs)
    (he : Reading.ofText names source = rs ++ more)
    (hb : ((ofText names source bindings).serve qs).2.script.Behind names source k)
    (he' : Reading.ofText names source' = rs ++ more') :
    ((ofText names source' bindings).serve qs).2.script.Behind names source' k ∧
      ∀ qs', qs' <+: qs →
        Alike ((ofText names source' bindings).serve qs') ((ofText names source bindings).serve qs') := by
  obtain ⟨line, hline, hbehind⟩ := hb.exists_line he hrs
  have hle : more.length ≤ ((ofText names source bindings).serve qs).2.script.unread.length := by
    rw [hline, List.length_append]
    exact Nat.le_add_left _ _
  constructor
  · obtain ⟨as, core, b, h⟩ := exists_serve_beginning hproper hrs he hle
    rw [h he] at hline hbehind
    rw [h he']
    have hcore : core.unread = line := List.append_cancel_right hline
    refine hbehind he' rfl ?_ rfl rfl
    rw [← hcore]
    rfl
  · rintro qs' ⟨rest, rfl⟩
    rw [serve_append] at hle
    have hs := sound_serve (d := ofText names source bindings) (sound_ofText names source) qs'
    obtain ⟨as, core, b, h⟩ :=
      exists_serve_beginning hproper hrs he (hle.trans (length_unread_serve hs rest))
    rw [h he, h he']
    exact ⟨rfl, rfl, rfl, rfl⟩

/-- When all the lines were evaluated, what was stored is what a run stores that keeps going. -/
theorem bindings_eq_run
    (hb : ((ofText names source bindings).serve qs).2.script.Behind names source k)
    (hk : k = lineBreaks source.toList + 1 ∨ ∃ rs r stop,
      Reading.ofText names source = rs ++ [r] ∧ r.item = .ok stop ∧ Reading.TakesLines k rs) :
    ((ofText names source bindings).serve qs).2.bindings =
      (Session.run ⟨{ names, keepGoing := true }, bindings⟩ source).2.bindings := by
  have hs₀ := sound_ofText names source
  have hs := sound_serve (d := ofText names source bindings) hs₀ qs
  have hshadows := shadows_serve (d := ofText names source bindings) hs₀
    (.start (ready_ofText names source)) qs
  exact (hshadows.bindings_run hs fun t ht => hb.atEnd hs ht hk).symm

/-- What became of the requests `qs` is settled by the text `u`, the first `k` lines. -/
structure Settled (names : NameGrammar) (source : String) (bindings : Bindings) (qs : List Request)
    (k : Nat) (u : List Char) : Prop where
  lines : FirstLines k u source.toList
  /-- Nothing behind these lines was read. -/
  read : ∃ w, w <+: u ∧
    ((ofText names source bindings).serve qs).2.script.HasRead names source w
  /-- What was stored is what a run of these lines stores that keeps going. -/
  stored : ((ofText names source bindings).serve qs).2.bindings =
    (Session.run ⟨{ names, keepGoing := true }, bindings⟩ (.ofList u)).2.bindings
  /-- Up to now it is the same for every other text with these first lines. -/
  alike : ∀ source' : String, FirstLines k u source'.toList → ∀ qs', qs' <+: qs →
    Alike ((ofText names source' bindings).serve qs') ((ofText names source bindings).serve qs')

theorem Traced.exists_settled (h : Traced names source (ofText names source bindings) qs k) :
    ∃ u, Settled names source bindings qs k u := by
  obtain ⟨u, w, hlines, hw, hread⟩ := h.behind.exists_firstLines
  suffices hs : ((ofText names source bindings).serve qs).2.bindings =
        (Session.run ⟨{ names, keepGoing := true }, bindings⟩ (.ofList u)).2.bindings ∧
      ∀ source' : String, FirstLines k u source'.toList → ∀ qs', qs' <+: qs →
        Alike ((ofText names source' bindings).serve qs')
          ((ofText names source bindings).serve qs') from
    ⟨u, hlines, ⟨w, hw, hread⟩, hs.1, hs.2⟩
  -- the lines end with a line break, behind which any text may stand, or they are the whole text
  rcases hlines.cases with ⟨v, hsource, hu, hv, rfl⟩ | ⟨rfl, hk⟩
  · obtain ⟨rs, place, hproper, hrs, hfirst, hrest⟩ := Reading.exists_beginning names hu
    have hbegins : ∀ {source' : String} {v'}, source'.toList = u ++ v' → Parts u v' →
        ∃ more, Reading.ofText names source' = rs ++ more := by
      intro source' v' hs hv'
      obtain ⟨more, hmore⟩ := hrest v' hv'
      exact ⟨more, by rw [← hmore, ← hs, String.ofList_toList]⟩
    obtain ⟨more, he⟩ := hbegins hsource hv
    constructor
    · -- what was stored is what the lines alone store
      obtain ⟨hb, halike⟩ := alike_of_behind hproper hrs he h.behind hfirst
      rw [← (halike qs (List.prefix_refl qs)).bindings]
      exact bindings_eq_run hb (.inr ⟨rs, _, _, hfirst, rfl, hrs⟩)
    · intro source' hlines' qs' hqs
      rcases hlines'.cases with ⟨v', hsource', -, hv', -⟩ | ⟨-, hk⟩
      · obtain ⟨more', he'⟩ := hbegins hsource' hv'
        exact (alike_of_behind hproper hrs he h.behind he').2 qs' hqs
      · omega
  · constructor
    · rw [String.ofList_toList]
      exact bindings_eq_run h.behind (.inl hk)
    · intro source' hlines' qs' hqs
      rcases hlines'.cases with ⟨v', -, -, -, hk'⟩ | ⟨htext, -⟩
      · omega
      · rw [String.toList_inj.mp htext]
        exact .refl _

/-- **No further than the line at hand.** Each statement that is evaluated for some requests stays on
its line. When they were answered, there is a line up to which the text was evaluated, and all is
settled by the text up to the end of this line: nothing behind it was read, what was stored is what
the lines up to this one store, and another text with the same first lines gives the same up to now.
If the last answer is an output or a fatal diagnostic, then it comes from this line. -/
theorem serve_settled (names : NameGrammar) (source : String) (bindings : Bindings)
    (qs : List Request) :
    (∀ b s, (ofText names source bindings).Meets qs b s → ∃ k u, s.OnLine names source k ∧
      FirstLines k u source.toList ∧
      Stays names source k u (Work.statement (fun _ => .int 0) ⟨s, b⟩)) ∧
    ∃ k u, Settled names source bindings qs k u ∧
      ∀ p, ((ofText names source bindings).serve qs).1.getLast?.bind Answer.handed? = some p →
        Caused names source (ofText names source bindings) qs k p := by
  constructor
  · intro b s h
    obtain ⟨k, u, hk, hu, hstays⟩ := h.exists_stays
    exact ⟨k, u, hk, hu, hstays _ _⟩
  · obtain ⟨k, h, hcaused⟩ := exists_traced names source bindings qs
    obtain ⟨u, hsettled⟩ := h.exists_settled
    exact ⟨k, u, hsettled, hcaused⟩

/-- A line that fails at its last token, and one behind it. -/
theorem serve_settled_failing :
    let source := "x = 2 )\nx"
    let d := ofText .free source {}
    (d.Meets [.next] d.bindings d.script ∧
      ∃ k u, d.script.OnLine .free source k ∧ FirstLines k u source.toList ∧
        Stays .free source k u (Work.statement (fun _ => .int 0) ⟨d.script, d.bindings⟩)) ∧
    ∃ k u, Settled .free source {} [.next] k u ∧
      ∃ p, (d.serve [.next]).1.getLast?.bind Answer.handed? = some p ∧
        Caused .free source d [.next] k p := by
  intro source d
  have hmeets : d.Meets [.next] d.bindings d.script :=
    ⟨⟨rfl, rfl, rfl⟩, [], List.prefix_refl _, .refl _ _⟩
  obtain ⟨hstatements, k, u, hsettled, hcaused⟩ := serve_settled .free source {} [.next]
  have hhanded : ((d.serve [.next]).1.getLast?.bind Answer.handed?).isSome = true := by
    decide +kernel
  obtain ⟨p, hp⟩ := Option.isSome_iff_exists.mp hhanded
  exact ⟨⟨hmeets, hstatements _ _ hmeets⟩, k, u, hsettled, p, hp, hcaused p hp⟩

end Dialogue

end LineCalc
