import LineCalc.Proofs.Requests.Causes

/-!
# Texts that begin alike

As long as a script reads nothing behind some whole lines, it does not matter what stands there: it
gives the same answers, counts the same and stores the same whatever follows. Whether it does read on
shows in what is left to be read at the end, since that never grows.
-/

namespace LineCalc

open Grammar Move Script

variable {standIn : Span → Number} {b b' b₁ b₂ : Bindings} {s t t₁ t₂ core : Script}
variable {m : List Move} {more : List Reading} {n : Nat}

/-! ### What is left to be read -/

theorem Progress.length_unread_le (p : Progress s m t) (hs : s.Lexical) :
    t.unread.length ≤ s.unread.length := by
  obtain ⟨read, new, hu, -⟩ := p.queue hs
  rw [hu, List.length_append]
  exact Nat.le_add_left _ _

/-- What is taken or looked at was read. -/
theorem Progress.length_unread_lt (p : Progress s m t) (hs : s.Lexical) (hl : s.lookahead = [])
    (h : taken m ++ t.lookahead ≠ []) : t.unread.length < s.unread.length := by
  obtain ⟨read, new, hu, -⟩ := p.queue hs
  have ha := p.ahead
  rw [Script.ahead, Script.ahead, hl, List.nil_append, hu, Reading.tokens_append,
    ← List.append_assoc] at ha
  have hread : Reading.tokens read = taken m ++ t.lookahead := List.append_cancel_right ha
  have hne : read ≠ [] := by
    rintro rfl
    exact h hread.symm
  have hpos := List.length_pos_iff.mpr hne
  rw [hu, List.length_append]
  omega

theorem Round.length_unread_le (h : Round standIn b s b' t) (hs : s.Sound) :
    t.unread.length ≤ s.unread.length := by
  obtain ⟨row, rest, ha, hrow⟩ := hs.exists_row
  rcases h.row_cases hs ha hrow with ⟨l, -, -, p, ⟨-, rfl⟩ | ⟨-, -, rfl⟩⟩ | ⟨x, -, -, p, -, rfl⟩
  all_goals exact p.length_unread_le hs.lexical

/-- To evaluate a statement something is read, if nothing was looked at before. -/
theorem Round.length_unread_lt (h : Round standIn b s b' t) (hs : s.Sound) (hl : s.lookahead = []) :
    t.unread.length < s.unread.length := by
  obtain ⟨row, rest, ha, hrow⟩ := hs.exists_row
  rcases h.row_cases hs ha hrow with ⟨l, hheight, rfl, p, ht⟩ | ⟨x, hx, rfl, p, -, rfl⟩
  · have hlt : (s.acts (l.moves ⟨b, standIn⟩)).unread.length < s.unread.length := by
      refine p.length_unread_lt hs.lexical hl ?_
      rcases l.stop.kind_eq with hk | hk
      · rw [l.taken_moves, l.takes_eq_body, LineEnd.taken_moves_of_newLine hk]
        simp
      · simp [l.lookahead_ne_nil ⟨b, standIn⟩ hheight hs ha hk]
    rcases ht with ⟨-, rfl⟩ | ⟨-, -, rfl⟩
    · exact hlt
    · exact hlt
  · refine p.length_unread_lt hs.lexical hl ?_
    simp [x.lookahead_ne_nil ⟨b, standIn⟩ hx hs ha]

theorem Rounds.length_unread_le (h : Rounds standIn b s b' t) (hs : s.Sound) :
    t.unread.length ≤ s.unread.length :=
  h.induct (P := fun _ t => t.unread.length ≤ s.unread.length) hs
    (fun hs hr hle => (hr.length_unread_le hs).trans hle) (Nat.le_refl _)

theorem Script.unread_handOver (s : Script) : s.handOver.2.unread = s.unread := by
  obtain ⟨queue, failure, h⟩ := s.exists_handOver_eq
  rw [h]

theorem Dialogue.length_unread_answer {d : Dialogue} (hs : d.script.Sound) (q : Request) :
    (d.answer q).2.script.unread.length ≤ d.script.unread.length := by
  cases q with
  | next =>
    obtain ⟨b', t, hr, -, ha⟩ := exists_rounds_answer hs
    rw [ha]
    show t.handOver.2.unread.length ≤ _
    rw [t.unread_handOver]
    exact hr.length_unread_le hs
  | recover =>
    rcases answer_recover_cases hs with hr | ⟨-, -, body, rest, stop, -, -, p, hr⟩
    · rw [hr]
    · rw [hr]
      exact p.length_unread_le hs.lexical

theorem Dialogue.length_unread_serve {d : Dialogue} (hs : d.script.Sound) (qs : List Request) :
    (d.serve qs).2.script.unread.length ≤ d.script.unread.length := by
  induction qs generalizing d with
  | nil => exact Nat.le_refl _
  | cons q qs ih => exact (ih (sound_answer hs q)).trans (length_unread_answer hs q)

/-! ### Whole lines with something behind -/

theorem Whole.halt (h : Whole s) (d : Diagnostic) : Whole (s.halt d) :=
  ⟨h.newLine, h.token, h.wellFormed, h.inside, h.lexical, h.room⟩

theorem Whole.handOver (h : Whole s) : Whole s.handOver.2 := by
  obtain ⟨queue, failure, he⟩ := s.exists_handOver_eq
  rw [he]
  exact ⟨h.newLine, h.token, h.wellFormed, h.inside, h.lexical, h.room⟩

theorem Script.handOver_extend (s : Script) (more : List Reading) (n : Nat) :
    (s.extend more n).handOver = (s.handOver.1, s.handOver.2.extend more n) := by
  rcases s.handOver_cases with ⟨o, rest, hq, ho⟩ | ⟨d, hq, hf, ho⟩ | ⟨hq, hf, ho⟩
  · rw [ho, handOver_output (s := s.extend more n) hq]
    rfl
  · rw [ho, handOver_failure (s := s.extend more n) hq hf]
    rfl
  · rw [ho, handOver_nothing (s := s.extend more n) hq hf]

theorem Script.due_extend : (s.extend more n).Due ↔ s.Due :=
  ⟨fun h => ⟨h.queue, h.failure, h.halted⟩, fun h => ⟨h.queue, h.failure, h.halted⟩⟩

/-- A turn of the loop that reads nothing behind the lines is the same whatever stands there. -/
theorem Round.exists_extend (h : Round standIn b (core.extend more n) b' t) (hw : Whole core)
    (hs : (core.extend more n).Sound) (hle : more.length ≤ t.unread.length) :
    ∃ core', t = core'.extend more n ∧ Whole core' ∧ ∀ more' n', (core.extend more' n').Sound →
      Round standIn b (core.extend more' n') b' (core'.extend more' n') := by
  have hdue := due_extend.mp h.due
  by_cases hnil : core.ahead = []
  · -- there is no line left, and the next one would be read
    obtain ⟨hl, hu⟩ := hw.eq_nil hnil
    have hlt := h.length_unread_lt hs hl
    change t.unread.length < (core.unread ++ more).length at hlt
    rw [hu, List.nil_append] at hlt
    omega
  · obtain ⟨row, rest, ha, hrow⟩ := hw.exists_row hnil
    rcases h.row_cases hs (ahead_extend_of_append ha more n) hrow with
      ⟨l, hl, rfl, -, ⟨hres, rfl⟩ | ⟨hres, -⟩⟩ | ⟨x, hx, rfl, -, rfl, rfl⟩
    · have p := l.progress ⟨b, standIn⟩ hl ha hw.room
      rw [acts_extend p.legal]
      refine ⟨_, rfl, hw.progress p, fun more' n' hs' => ?_⟩
      obtain ⟨t', ht', p', -⟩ := Eval.yields_statement ⟨b, standIn⟩ l
        (ahead_extend_of_append ha more' n') hs'.room hl
      rw [p'.acts, acts_extend p.legal, hres] at ht'
      exact .line (due_extend.mpr hdue) (Work.statement_more.mpr ht')
    · -- the end of the input is none of the lines
      have hk := Line.kind_stop_of_result hres
      refine absurd hk (hw.inside _ ?_)
      rw [ha, l.tokens_eq_body]
      simp
    · have p := x.progress ⟨b', standIn⟩ hx ha hw.room
      rw [acts_extend p.legal]
      refine ⟨(core.acts (x.moves ⟨b', standIn⟩)).halt x.diagnostic, rfl, (hw.progress p).halt _,
        fun more' n' hs' => ?_⟩
      obtain ⟨t', ht', p'⟩ := Eval.fails_statement ⟨b', standIn⟩ x
        (ahead_extend_of_append ha more' n') hs'.room hx
      rw [p'.acts, acts_extend p.legal] at ht'
      exact .halt (due_extend.mpr hdue) (Work.statement_error.mpr ht')

/-- So is the loop. -/
theorem Rounds.exists_extend (h : Rounds standIn b s b' t) (hcore : s = core.extend more n)
    (hw : Whole core) (hs : s.Sound) (hle : more.length ≤ t.unread.length) :
    ∃ core', t = core'.extend more n ∧ Whole core' ∧ ∀ more' n', (core.extend more' n').Sound →
      Rounds standIn b (core.extend more' n') b' (core'.extend more' n') := by
  induction h generalizing core with
  | refl => exact ⟨core, hcore, hw, fun _ _ _ => .refl _ _⟩
  | step h rest ih =>
    subst hcore
    have hs₁ := h.sound hs
    obtain ⟨core₁, rfl, hw₁, h₁⟩ := h.exists_extend hw hs (hle.trans (rest.length_unread_le hs₁))
    obtain ⟨core', rfl, hw', h'⟩ := ih rfl hw₁ hs₁ hle
    refine ⟨core', rfl, hw', fun more' n' hs' => ?_⟩
    have hr := h₁ more' n' hs'
    exact .step hr (h' more' n' (hr.sound hs'))

namespace Dialogue

section

variable {body rest : List Token}

theorem allLegal_resumed (stop : LineEnd) (ha : core.ahead = body ++ stop.1 :: rest)
    (hb : ∀ t ∈ body, t.kind.endsLine = false) :
    AllLegal core.pardoned.ahead (Feed.skipMoves body stop) := by
  show AllLegal core.ahead _
  rw [ha, List.append_cons]
  exact (allLegal_skipMoves stop hb).append_right rest

theorem resumed_extend (stop : LineEnd) (ha : core.ahead = body ++ stop.1 :: rest)
    (hb : ∀ t ∈ body, t.kind.endsLine = false) (more : List Reading) (n : Nat) :
    (core.extend more n).resumed body stop = (core.resumed body stop).extend more n := by
  show { (core.pardoned.extend more n).acts (Feed.skipMoves body stop) with halted := false } = _
  rw [acts_extend (allLegal_resumed stop ha hb)]
  rfl

theorem whole_resumed (stop : LineEnd) (ha : core.ahead = body ++ stop.1 :: rest)
    (hb : ∀ t ∈ body, t.kind.endsLine = false) (hw : Whole core) :
    Whole (core.resumed body stop) := by
  have hw' : Whole core.pardoned :=
    ⟨hw.newLine, hw.token, hw.wellFormed, hw.inside, hw.lexical, hw.room⟩
  have hskip := hw'.progress (progress_acts (allLegal_resumed stop ha hb))
  exact ⟨hskip.newLine, hskip.token, hskip.wellFormed, hskip.inside, hskip.lexical, hskip.room⟩

end

/-- An answer for which nothing behind the lines is read is the same whatever stands there. -/
theorem exists_answer_extend (hw : Whole core) (hs : (core.extend more n).Sound) (q : Request)
    (hle : more.length ≤ (answer ⟨core.extend more n, b⟩ q).2.script.unread.length) :
    ∃ a core' b', Whole core' ∧ ∀ more' n', (core.extend more' n').Sound →
      answer ⟨core.extend more' n', b⟩ q = (a, ⟨core'.extend more' n', b'⟩) := by
  cases q with
  | next =>
    obtain ⟨b', t, hr, hd, ha⟩ := exists_rounds_answer (d := ⟨core.extend more n, b⟩) hs
    rw [ha] at hle
    change more.length ≤ t.handOver.2.unread.length at hle
    rw [t.unread_handOver] at hle
    obtain ⟨core', rfl, hw', h'⟩ := hr.exists_extend rfl hw hs hle
    refine ⟨.pulled core'.handOver.1, core'.handOver.2, b', hw'.handOver, fun more' n' hs' => ?_⟩
    rw [answer_next_of_rounds (d := ⟨core.extend more' n', b⟩) hs' (h' more' n' hs')
      fun h => hd (due_extend.mpr (due_extend.mp h)), handOver_extend]
  | recover =>
    by_cases hstopped : core.halted = false ∨ core.finished = true
    · exact ⟨.recovered false, core, b, hw, fun more' n' _ =>
        answer_recover_of_false (d := ⟨core.extend more' n', b⟩) hstopped⟩
    · simp only [not_or, Bool.not_eq_false, Bool.not_eq_true] at hstopped
      by_cases hnil : core.ahead = []
      · -- there is no line left, and the next one would be read
        obtain ⟨hl, hu⟩ := hw.eq_nil hnil
        obtain ⟨row, rest, ha, body, stop, rfl, hstop, hb⟩ := hs.exists_row
        have ha : (core.extend more n).ahead = body ++ stop :: rest := by simpa using ha
        obtain ⟨p, hr⟩ := exists_answer_recover (d := ⟨core.extend more n, b⟩) hs hstopped.1
          hstopped.2 ⟨stop, hstop⟩ ha hb
        have hlt := p.length_unread_lt hs.lexical hl (by
          rw [Feed.taken_skipMoves]
          rcases LineEnd.kind_eq ⟨stop, hstop⟩ with hk | hk
          · rw [LineEnd.taken_moves_of_newLine hk]
            simp
          · have := resumed_lookahead_ne_nil (s := core.extend more n) hs p.legal hk
            exact fun hn => this (List.append_eq_nil_iff.mp hn).2)
        rw [hr] at hle
        change _ < (core.unread ++ more).length at hlt
        rw [hu, List.nil_append] at hlt
        exact absurd hle (Nat.not_le_of_lt hlt)
      · obtain ⟨row, rest, ha, body, stop, rfl, hstop, hb⟩ := hw.exists_row hnil
        have ha : core.ahead = body ++ stop :: rest := by simpa using ha
        refine ⟨.recovered true, core.resumed body ⟨stop, hstop⟩, b,
          whole_resumed ⟨stop, hstop⟩ ha hb hw, fun more' n' hs' => ?_⟩
        have ha' : (core.extend more' n').ahead = body ++ stop :: (rest ++ Reading.tokens more') := by
          rw [ahead_extend, ha, List.append_assoc]
          rfl
        obtain ⟨-, hr⟩ := exists_answer_recover (d := ⟨core.extend more' n', b⟩) hs' hstopped.1
          hstopped.2 ⟨stop, hstop⟩ ha' hb
        rw [hr, resumed_extend ⟨stop, hstop⟩ ha hb]

theorem exists_serve_extend (qs : List Request) (hw : Whole core) (hs : (core.extend more n).Sound)
    (hle : more.length ≤ (serve ⟨core.extend more n, b⟩ qs).2.script.unread.length) :
    ∃ (as : List Answer) (core' : Script) (b' : Bindings), ∀ more' n',
      (core.extend more' n').Sound →
      serve ⟨core.extend more' n', b⟩ qs = (as, ⟨core'.extend more' n', b'⟩) := by
  induction qs generalizing core b with
  | nil => exact ⟨[], core, b, fun _ _ _ => rfl⟩
  | cons q qs ih =>
    have hs₁ : (answer ⟨core.extend more n, b⟩ q).2.script.Sound := sound_answer hs q
    have hle₁ := hle.trans (length_unread_serve hs₁ qs)
    obtain ⟨a, core₁, b₁, hw₁, h₁⟩ := exists_answer_extend hw hs q hle₁
    have ha := h₁ more n hs
    rw [serve, ha] at hle
    rw [ha] at hs₁
    obtain ⟨as, core', b', h'⟩ := ih hw₁ hs₁ hle
    refine ⟨a :: as, core', b', fun more' n' hs' => ?_⟩
    have ha' := h₁ more' n' hs'
    have hs₂ := sound_answer (d := ⟨core.extend more' n', b⟩) hs' q
    rw [ha'] at hs₂
    rw [serve, ha', h' more' n' hs₂]

end Dialogue

end LineCalc
