import LineCalc.Proofs.Reading.Blanked
import LineCalc.Proofs.Transcript.Course

/-!
# Runs without illegal characters

An illegal character is complained of when it is read, and that is all that it does to a run. So a run
of the text with spaces in the place of such characters goes alike, row by row, and puts out the same
but for their diagnostics.
-/

namespace LineCalc

open Grammar Move

variable {standIn : Span → Number} {b b' : Bindings} {s s' t : Script} {m : List Move} {c c' : Bool}
variable {os : List Output} {d : Diagnostic}

/-- Is this the diagnostic of an illegal character? -/
def Output.isIllegal : Output → Bool
  | .value _ => false
  | .diagnostic d => d.isIllegal

theorem Diagnostic.isIllegal_of_isLexical (h : d.isLexical = false) : d.isIllegal = false := by
  obtain ⟨problem, span⟩ := d
  cases problem <;> first | rfl | cases h

/-- Moves do not report what only reading gives rise to. -/
theorem Move.AllLegal.isLexical_of_report {toks : List Token} (h : AllLegal toks m) :
    ∀ d, .report d ∈ m → d.isLexical = false := by
  induction m generalizing toks with
  | nil => intro d hd; cases hd
  | cons x m ih =>
    obtain ⟨hx, h⟩ := h
    intro d hd
    rcases List.mem_cons.mp hd with rfl | hd
    · exact hx
    · exact ih h d hd

theorem Script.fillFrom_of_lt {n : Nat} (h : n < s.lookahead.length) (rs : List Reading) :
    s.fillFrom n rs = some { s with unread := rs } := by
  cases rs with
  | nil =>
    have hne : s.lookahead ≠ [] := List.ne_nil_of_length_pos (Nat.zero_lt_of_lt h)
    have hz : n + 1 - s.lookahead.length = 0 := by omega
    rw [fillFrom, List.getLast?_eq_some_getLast hne, Option.map_some, hz, List.replicate_zero,
      List.append_nil]
  | cons r rs => rw [fillFrom, if_pos h]

/-! ### Scripts side by side -/

/-- `s'` is `s` without the illegal characters that are to be read and the diagnostics of those that
were read. Only the tokens and the statements that were counted are compared. -/
structure Sifted (s s' : Script) : Prop where
  unread : s'.unread.map (·.item) = (s.unread.map (·.item)).filter (!Reading.isIllegal ·)
  lookahead : s'.lookahead = s.lookahead
  queue : s'.queue = s.queue.filter (!·.isIllegal)
  tokens : s'.evalTally.tokens = s.evalTally.tokens
  statements : s'.evalTally.statements = s.evalTally.statements

namespace Sifted

theorem ofReadings {rs rs' : List Reading}
    (h : rs'.map (·.item) = (rs.map (·.item)).filter (!Reading.isIllegal ·)) :
    Sifted (.ofReadings rs) (.ofReadings rs') where
  unread := h
  lookahead := rfl
  queue := rfl
  tokens := rfl
  statements := rfl

theorem ahead (h : Sifted s s') : s'.ahead = s.ahead := by
  have htokens : ∀ rs : List Reading,
      Reading.tokens rs = (rs.map (·.item)).filterMap Except.toOption := by
    intro rs
    rw [List.filterMap_map]
    rfl
  rw [Script.ahead, Script.ahead, h.lookahead, htokens, htokens, h.unread, List.filterMap_filter]
  congr 1
  refine List.filterMap_congr fun item _ => ?_
  cases item with
  | ok t => rfl
  | error d => cases Reading.isIllegal (.error d) <;> rfl

theorem report (h : Sifted s s') (hd : d.isIllegal = false) : Sifted (s.report d) (s'.report d) :=
  { h with
    queue := by
      show s'.queue ++ _ = (s.queue ++ _).filter _
      rw [List.filter_append, h.queue, List.filter_cons_of_pos (by simp [Output.isIllegal, hd])]
      rfl }

/-- What is not illegal is read on both sides. -/
theorem absorb {r r' : Reading} {rs rs' : List Reading}
    (h : Sifted { s with unread := r :: rs } { s' with unread := r' :: rs' })
    (hr : Reading.isIllegal r.item = false) :
    Sifted { s.absorb r with unread := rs } { s'.absorb r' with unread := rs' } := by
  have hu : (r' :: rs').map (·.item) = ((r :: rs).map (·.item)).filter (!Reading.isIllegal ·) :=
    h.unread
  rw [List.map_cons, List.map_cons, List.filter_cons_of_pos (by simp [hr])] at hu
  obtain ⟨hitem, hrest⟩ := List.cons.inj hu
  obtain ⟨chunks, item⟩ := r
  obtain ⟨chunks', item'⟩ := r'
  obtain rfl : item' = item := hitem
  cases item' with
  | ok tok =>
    refine { h with unread := hrest, lookahead := ?_ }
    show s'.lookahead ++ [tok] = s.lookahead ++ [tok]
    rw [h.lookahead]
  | error d => exact { h.report hr with unread := hrest }

/-- What is illegal is read on one side only. -/
theorem absorb_illegal {r : Reading} {rs rs' : List Reading}
    (h : Sifted { s with unread := r :: rs } { s' with unread := rs' })
    (hr : Reading.isIllegal r.item = true) :
    Sifted { s.absorb r with unread := rs } { s' with unread := rs' } := by
  have hu : rs'.map (·.item) = ((r :: rs).map (·.item)).filter (!Reading.isIllegal ·) := h.unread
  rw [List.map_cons, List.filter_cons_of_neg (by simp [hr])] at hu
  obtain ⟨chunks, item⟩ := r
  cases item with
  | ok tok => cases hr
  | error d =>
    refine { h with unread := hu, queue := ?_ }
    show s'.queue = (s.queue ++ _).filter _
    have hq : s'.queue = s.queue.filter (!·.isIllegal) := h.queue
    have hd : d.isIllegal = true := hr
    rw [List.filter_append, ← hq, List.filter_cons_of_neg (by simp [Output.isIllegal, hd])]
    exact (List.append_nil _).symm

theorem fillFrom {n : Nat} {rs rs' : List Reading}
    (h : Sifted { s with unread := rs } { s' with unread := rs' }) :
    Option.Rel Sifted (s.fillFrom n rs) (s'.fillFrom n rs') := by
  induction rs generalizing s s' rs' with
  | nil =>
    obtain rfl : rs' = [] := List.map_eq_nil_iff.mp h.unread
    have hl : s'.lookahead = s.lookahead := h.lookahead
    rw [Script.fillFrom, Script.fillFrom, hl]
    cases s.lookahead.getLast? with
    | none => exact .none
    | some last => exact .some { h with lookahead := rfl }
  | cons r rs ih =>
    by_cases hn : n < s.lookahead.length
    · have hn' : n < s'.lookahead.length := h.lookahead ▸ hn
      rw [Script.fillFrom_of_lt hn, Script.fillFrom_of_lt hn']
      exact .some h
    · have hn' : ¬n < s'.lookahead.length := h.lookahead ▸ hn
      rw [Script.fillFrom, if_neg hn]
      -- what is illegal is read on the left only, and puts nothing in front
      by_cases hr : Reading.isIllegal r.item = true
      · exact ih (h.absorb_illegal hr)
      · have hr := Bool.eq_false_iff.mpr hr
        obtain ⟨r', rs', rfl⟩ : ∃ r' rs'', rs' = r' :: rs'' := by
          refine List.exists_cons_of_ne_nil ?_
          rintro rfl
          have hu := h.unread
          simp [hr] at hu
        rw [Script.fillFrom, if_neg hn']
        exact ih (h.absorb hr)

theorem fill (h : Sifted s s') (n : Nat) :
    Sifted ((s.fillFrom n s.unread).getD s) ((s'.fillFrom n s'.unread).getD s') := by
  have hrel : Option.Rel Sifted (s.fillFrom n s.unread) (s'.fillFrom n s'.unread) := fillFrom h
  generalize s.fillFrom n s.unread = o, s'.fillFrom n s'.unread = o' at hrel
  cases hrel with
  | none => exact h
  | some ht => exact ht

theorem act {x : Move} (h : Sifted s s') (hx : ∀ d, x = .report d → d.isLexical = false) :
    Sifted (s.act x) (s'.act x) := by
  cases x with
  | look n => exact h.fill n
  | take tok =>
    have hf := h.fill 0
    refine { hf with lookahead := ?_, tokens := congrArg (· + 1) hf.tokens }
    show (if _ then _ else _) = if _ then _ else _
    rw [hf.lookahead]
  | report d => exact h.report (Diagnostic.isIllegal_of_isLexical (hx d rfl))
  | print value =>
    refine { h with queue := ?_ }
    show s'.queue ++ _ = (s.queue ++ _).filter _
    rw [List.filter_append, h.queue]
    rfl
  | count => exact { h with statements := congrArg (· + 1) h.statements }
  | blame | forgive | note | enter | leave | clear => exact { h with }

theorem acts (h : Sifted s s') (hm : ∀ d, .report d ∈ m → d.isLexical = false) :
    Sifted (s.acts m) (s'.acts m) := by
  induction m generalizing s s' with
  | nil => exact h
  | cons x m ih =>
    refine ih (h.act fun d hd => hm d (hd ▸ List.mem_cons_self)) fun d hd => ?_
    exact hm d (List.mem_cons_of_mem x hd)

theorem flushed (h : Sifted s s') : Sifted s.flushed s'.flushed := { h with queue := rfl }

theorem finish (h : Sifted s s') : Sifted s.finish s'.finish := { h with }

theorem failed (h : Sifted s s') (d : Diagnostic) : Sifted (s.failed d) (s'.failed d) :=
  { h with queue := rfl }

end Sifted

/-! ### Rows -/

theorem Sifted.line (scope : Scope) {l : Line} {rest : List Token} (h : Sifted s s') (hs : s.Sound)
    (hl : l.height ≤ maxNesting) (ha : s.ahead = l.tokens ++ rest) :
    Sifted (s.acts (l.moves scope)) (s'.acts (l.moves scope)) :=
  h.acts (l.progress scope hl ha hs.room).legal.isLexical_of_report

theorem Sifted.slip (scope : Scope) {x : Slip} {rest : List Token} (h : Sifted s s') (hs : s.Sound)
    (hx : x.Fits) (ha : s.ahead = x.tokens ++ rest) :
    Sifted (s.acts (x.moves scope)) (s'.acts (x.moves scope)) :=
  h.acts (x.progress scope hx ha hs.room).legal.isLexical_of_report

theorem Passes.sifted (h : Passes c standIn b s os b' t) (hs : s.Sound) (hr : s.Ready)
    (hs' : s'.Sound) (hr' : s'.Ready) (hss : Sifted s s') :
    ∃ t', Passes c standIn b s' (os.filter (!·.isIllegal)) b' t' ∧ Sifted t t' := by
  obtain ⟨row, rest, ha, hrow⟩ := hs.exists_row
  have ha' : s'.ahead = row ++ rest := hss.ahead.trans ha
  rcases h.row_cases hs hr.finished ha hrow with
    ⟨l, hl, rfl, hresult, rfl, rfl⟩ | ⟨rfl, rfl, x, body, stop, hx, rfl, he, hb, rfl, rfl⟩
  · have hline := hss.line ⟨b, standIn⟩ hs hl ha
    rw [← hline.queue]
    exact ⟨_, .of_line c l hl ha' hs'.room hresult, hline.flushed⟩
  · have hfatal := Diagnostic.isIllegal_of_isLexical (Diagnostic.isLexical_of_isFatal hx.isFatal)
    have hslip := hss.slip ⟨b', standIn⟩ hs hx ha
    have hskip : Sifted (s.skipped ⟨b', standIn⟩ x body stop) (s'.skipped ⟨b', standIn⟩ x body stop) := by
      have hacts := (hslip.failed x.diagnostic).acts
        (x.progress_skip ⟨b', standIn⟩ hx ha hs.room stop he hb).legal.isLexical_of_report
      exact { hacts with }
    refine ⟨_, ?_, hskip.flushed⟩
    rw [List.filter_append, List.filter_cons_of_pos (by simp [Output.isIllegal, hfatal]),
      ← hslip.queue, ← hskip.queue]
    exact .of_slip x hx ha' hs'.room hr'.finished stop he hb

theorem Ends.sifted (h : Ends c standIn b s os c' t) (hs : s.Sound) (hs' : s'.Sound)
    (hss : Sifted s s') : ∃ t', Ends c standIn b s' (os.filter (!·.isIllegal)) c' t' ∧ Sifted t t' := by
  obtain ⟨row, rest, ha, hrow⟩ := hs.exists_row
  have ha' : s'.ahead = row ++ rest := hss.ahead.trans ha
  rcases h.row_cases hs ha hrow with
    ⟨rfl, l, hl, rfl, hresult, rfl, rfl⟩ | ⟨rfl, rfl, x, hx, rfl, rfl, rfl⟩
  · have hline := hss.line ⟨b, standIn⟩ hs hl ha
    rw [← hline.queue]
    exact ⟨_, .of_line c l hl ha' hs'.room hresult, hline.finish.flushed⟩
  · have hfatal := Diagnostic.isIllegal_of_isLexical (Diagnostic.isLexical_of_isFatal hx.isFatal)
    have hslip := hss.slip ⟨b, standIn⟩ hs hx ha
    refine ⟨_, ?_, hslip.failed x.diagnostic⟩
    rw [List.filter_append, List.filter_cons_of_pos (by simp [Output.isIllegal, hfatal]),
      ← hslip.queue]
    exact .of_slip x hx ha' hs'.room

/-- Whole runs go alike. -/
theorem Runs.sifted (h : Runs c standIn b s os c' b' t) (hs : s.Sound) (hr : s.Ready)
    (hs' : s'.Sound) (hr' : s'.Ready) (hss : Sifted s s') :
    ∃ t', Runs c standIn b s' (os.filter (!·.isIllegal)) c' b' t' ∧ Sifted t t' := by
  induction h generalizing s' with
  | last h =>
    obtain ⟨t', h', ht⟩ := h.sifted hs hs' hss
    exact ⟨t', .last h', ht⟩
  | pass h rest ih =>
    obtain ⟨hs₁, hr₁⟩ := h.ready hs hr
    obtain ⟨s₁', h', hss₁⟩ := h.sifted hs hr hs' hr' hss
    obtain ⟨hs₁', hr₁'⟩ := h'.ready hs' hr'
    obtain ⟨t', hrest, ht⟩ := ih hs₁ hr₁ hs₁' hr₁' hss₁
    rw [List.filter_append]
    exact ⟨t', .pass h' hrest, ht⟩

/-- **An illegal character acts like a blank.** With a space in its place the same is read, in the same
places, but for its diagnostic; and whatever the configuration and the bindings are, a run puts out the
same but for such diagnostics, is completed alike, leaves the same bindings, and counts the same tokens
and statements. This holds if no name is spelled like a keyword, as one is that stands in front of an
illegal word character. -/
theorem Session.run_blanked (config : Config) (bindings : Bindings) (source : String)
    (hnames : ∀ t ∈ Reading.tokens (Reading.ofText config.names source), t.kind = .ident →
      t.lexeme ∉ ["sin", "cos", "exp", "log"]) :
    let source' := Reading.blanked config.names source
    let run := fun source => Session.run ⟨config, bindings⟩ source
    (Reading.ofText config.names source').map (·.item) =
      ((Reading.ofText config.names source).map (·.item)).filter (!Reading.isIllegal ·) ∧
    (run source').1.outputs = (run source).1.outputs.filter (!·.isIllegal) ∧
    (run source').1.completed = (run source).1.completed ∧
    (run source').1.breach = none ∧ (run source).1.breach = none ∧
    (run source').2.bindings = (run source).2.bindings ∧
    (run source').1.evalTally.tokens = (run source).1.evalTally.tokens ∧
    (run source').1.evalTally.statements = (run source).1.evalTally.statements := by
  intro source' run
  have hitems := Reading.items_blanked config.names source hnames
  obtain ⟨os, c, b', t, h, hrun⟩ := Session.exists_run_eq config bindings source
  obtain ⟨t', h', ht⟩ := h.sifted (Script.sound_ofText config.names source)
    (Script.ready_ofText config.names source) (Script.sound_ofText config.names source')
    (Script.ready_ofText config.names source') (.ofReadings hitems)
  have hrun : run source = _ := hrun
  have hrun' : run source' = _ := Session.run_eq_of_runs h'
  rw [hrun, hrun']
  exact ⟨hitems, by simp [Transcript.ofScript], rfl, rfl, rfl, rfl, ht.tokens, ht.statements⟩

/-- The name of a slot in front of a point, and what looks like one but is not. -/
theorem Session.run_blanked_slots :
    let config : Config := { names := .memorySlots, keepGoing := true }
    let source := "MEM_1.= 2 $ * .5\nMEM_11 - sinh(é MEM_1 %)\n"
    let source' := Reading.blanked config.names source
    let run := fun source => Session.run ⟨config, {}⟩ source
    (∀ t ∈ Reading.tokens (Reading.ofText config.names source), t.kind = .ident →
      t.lexeme ∉ ["sin", "cos", "exp", "log"]) ∧
    source' = "MEM_1 = 2   * .5\n    11 -     (  MEM_1  )\n" ∧
    (Reading.ofText config.names source').map (·.item) =
      ((Reading.ofText config.names source).map (·.item)).filter (!Reading.isIllegal ·) ∧
    (run source').1.outputs = (run source).1.outputs.filter (!·.isIllegal) ∧
    (run source').1.completed = (run source).1.completed ∧
    (run source').1.breach = none ∧ (run source).1.breach = none ∧
    (run source').2.bindings = (run source).2.bindings ∧
    (run source').1.evalTally.tokens = (run source).1.evalTally.tokens ∧
    (run source').1.evalTally.statements = (run source).1.evalTally.statements := by
  intro config source
  have hnames : ∀ t ∈ Reading.tokens (Reading.ofText .memorySlots
      "MEM_1.= 2 $ * .5\nMEM_11 - sinh(é MEM_1 %)\n"), t.kind = .ident →
      t.lexeme ∉ ["sin", "cos", "exp", "log"] := by decide +kernel
  have hsource : Reading.blanked .memorySlots "MEM_1.= 2 $ * .5\nMEM_11 - sinh(é MEM_1 %)\n" =
      "MEM_1 = 2   * .5\n    11 -     (  MEM_1  )\n" := by decide +kernel
  exact ⟨hnames, hsource, Session.run_blanked config {} source hnames⟩

end LineCalc
