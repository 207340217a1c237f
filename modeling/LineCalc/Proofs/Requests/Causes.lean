import LineCalc.Proofs.Requests.Reach

/-!
# The line that an output comes from

A statement is evaluated only when nothing waits to be handed over. So what waits between two requests
comes from the latest statement that was evaluated, or from reading what was left of its line, and
nothing behind that line was read. `Script.Behind` says where a script stands then, and
`Dialogue.Traced` what is known of the things that wait.
-/

namespace LineCalc

open Grammar Move

variable {names : NameGrammar} {source : String} {standIn : Span → Number} {b b' : Bindings}
variable {s t : Script} {k : Nat}

/-- The lines up to `k` were evaluated, and nothing behind them was read. -/
inductive Script.Behind (names : NameGrammar) (source : String) (k : Nat) (s : Script) : Prop where
  /-- The script stands in front of the next line. -/
  | passed {done : List Reading} (hl : s.lookahead = [])
      (hd : Reading.ofText names source = done ++ s.unread) (hk : Reading.TakesLines k done)
      (hh : s.halted = false) (hf : s.finished = false)
  /-- The script stands at the end of the input, which was looked at. -/
  | ended {front line more : List Reading} {before : List Token} {stop : LineEnd}
      (h : InRow (Reading.ofText names source) front line more before [stop.1] s)
      (hs : stop.1.kind = .endOfInput) (hl : s.lookahead ≠ []) (hk : 1 + newLines before = k)
      (hh : s.halted = s.finished)
  /-- The script stands in the line `k`, which failed. -/
  | failed {front line more : List Reading} {before body : List Token} {stop : LineEnd}
      (h : InRow (Reading.ofText names source) front line more before (body ++ [stop.1]) s)
      (hk : 1 + newLines before = k) (hh : s.halted = true) (hf : s.finished = false)

/-- The diagnostic that is handed over, if it is one. -/
def Pulled.diagnostic? : Pulled → Option Diagnostic
  | .output (.diagnostic d) => some d
  | .failure d => some d
  | _ => none

/-- A diagnostic that is handed over is about the line `k`. -/
def Pulled.About (k : Nat) (p : Pulled) : Prop := ∀ d, p.diagnostic? = some d → d.span.start.line = k

namespace Script

theorem behind_ofText (names : NameGrammar) (source : String) :
    (Script.ofText names source).Behind names source 0 := by
  have hd : Reading.ofText names source = [] ++ (Script.ofText names source).unread := rfl
  exact .passed rfl hd .nil rfl rfl

namespace Behind

theorem congr (h : s.Behind names source k) (hl : t.lookahead = s.lookahead)
    (hu : t.unread = s.unread) (hh : t.halted = s.halted) (hf : t.finished = s.finished) :
    t.Behind names source k := by
  cases h with
  | passed hl' hd hk hh' hf' =>
    exact .passed (hl.trans hl') (hu ▸ hd) hk (hh.trans hh') (hf.trans hf')
  | ended h hs hl' hk hh' => exact .ended (h.congr hl hu) hs (hl ▸ hl') hk (by rw [hh, hf, hh'])
  | failed h hk hh' hf' => exact .failed (h.congr hl hu) hk (hh.trans hh') (hf.trans hf')

theorem exists_firstLines (h : s.Behind names source k) :
    ∃ u w, FirstLines k u source.toList ∧ w <+: u ∧ s.HasRead names source w := by
  cases h with
  | passed hl hd hk => exact ⟨_, _, hk.firstLines hd, List.prefix_refl _, _, hd, rfl⟩
  | ended h hs hl hk hh =>
    obtain ⟨w, hw, hr⟩ := h.exists_hasRead
    exact ⟨_, w, hk ▸ h.firstLines, hw, hr⟩
  | failed h hk hh hf =>
    obtain ⟨w, hw, hr⟩ := h.exists_hasRead
    exact ⟨_, w, hk ▸ h.firstLines, hw, hr⟩

theorem exists_inRow (h : s.Behind names source k) (hs : s.Sound) :
    ∃ front line more before row,
      InRow (Reading.ofText names source) front line more before row s := by
  cases h with
  | passed hl hd hk hh hf =>
    obtain ⟨line, more, row, hr⟩ := InRow.exists_of_lookahead_eq_nil hs hl _
    rw [← hd] at hr
    exact ⟨_, _, _, _, _, hr⟩
  | ended h | failed h => exact ⟨_, _, _, _, _, h⟩

/-- Not more than one token was looked at, if the script has not failed. -/
theorem length_lookahead_le (h : s.Behind names source k) (hh : s.halted = false) :
    s.lookahead.length ≤ 1 := by
  cases h with
  | passed hl => simp [hl]
  | ended h hs hl hk hh' => simp [(h.eq_of_endOfInput hs hl).1]
  | failed h hk hh' => simp [hh'] at hh

end Behind

end Script

open Script

/-- Behind a row that was taken up to its end. -/
theorem InRow.behind_past {front line more : List Reading} {before body : List Token}
    {stop : LineEnd} {m : List Move}
    (h : InRow (Reading.ofText names source) front line more before (body ++ [stop.1]) s)
    (hs : s.Sound) (hm : AllLegal (body ++ [stop.1]) m) (ht : taken m = body ++ taken stop.moves)
    (hlook : stop.1.kind = .endOfInput → (s.acts m).lookahead ≠ [])
    (hl : t.lookahead = (s.acts m).lookahead) (hu : t.unread = (s.acts m).unread)
    (hh : t.halted = t.finished) (hn : stop.1.kind = .newLine → t.halted = false) :
    t.Behind names source (1 + newLines before) := by
  rcases h.past hs hm ht with ⟨hk, hl', hu', -⟩ | ⟨hk, line', hr⟩
  · have hhalted := hn hk
    refine .passed (hl.trans hl') ?_ (h.takesLines hk) hhalted (hh ▸ hhalted)
    rw [hu, hu', h.whole]
  · have hbody := h.isRow.newLines_body
    refine .ended (hr.congr hl hu) hk (hl ▸ hlook hk) ?_ hh
    rw [newLines_append, hbody]
    rfl

theorem Block.about {c : Bool} {os : List Output} (h : Block c k os) :
    ∀ p ∈ os.map Pulled.output, p.About k := by
  intro p hp d hd
  obtain ⟨o, ho, rfl⟩ := List.mem_map.mp hp
  cases o with
  | value n => cases hd
  | diagnostic d' =>
    obtain rfl := Option.some.inj hd
    exact h.line _ ho

section

variable {front line more : List Reading} {before : List Token} {stop : LineEnd}

/-- At the end of the input a turn of the loop finds just that, and nothing waits. -/
theorem InRow.round_endOfInput
    (h : InRow (Reading.ofText names source) front line more before [stop.1] s)
    (hk : stop.1.kind = .endOfInput) (hl : s.lookahead ≠ []) (hs : s.Sound)
    (hr : Round standIn b s b' t) :
    t.Behind names source (1 + newLines before) ∧ Dialogue.waiting t = [] ∧ t.halted = t.finished := by
  have hdue := hr.due
  obtain ⟨hlook, hunread⟩ := h.eq_of_endOfInput hk hl
  have ha : s.ahead = [stop.1] := by
    rw [Script.ahead, hlook, hunread]
    rfl
  obtain ⟨u, hu, p⟩ := hs.exists_statement_end ⟨b, standIn⟩ ha
  -- there is nothing left to be read, so nothing is put out
  obtain ⟨read, hread, hq⟩ := p.exists_read hs.lexical rfl
  rw [hunread] at hread
  rw [hdue.queue, (List.append_eq_nil_iff.mp hread.symm).1] at hq
  obtain rfl := p.acts
  cases hr with
  | line _ he => cases hu.symm.trans (Work.statement_more.mp he)
  | halt _ he => cases hu.symm.trans (Work.statement_error.mp he)
  | finish _ he =>
    obtain ⟨-, rfl⟩ := EStateM.Result.ok.inj (hu.symm.trans (Work.statement_finished.mp he))
    obtain ⟨line', hr'⟩ := h.acts hs.lexical (m := [.clear, .look 0])
      ⟨trivial, Nat.zero_lt_one, trivial⟩ rfl (List.cons_ne_nil _ _)
    have hne := act_look_lookahead_ne_nil (s := s.cleared) hs.length_ahead_pos
    refine ⟨.ended (hr'.congr rfl rfl) hk hne ?_ rfl, ?_, rfl⟩
    · rw [newLines_append]
      rfl
    · show (s.acts [.clear, .look 0]).queue.map Pulled.output ++
        (s.acts [.clear, .look 0]).failure.toList.map Pulled.failure = []
      rw [hq, p.failure, hdue.failure]
      rfl

/-- In front of a line a turn of the loop evaluates it, and what waits then is about this line. -/
theorem InRow.round_line {row : List Token}
    (h : InRow (Reading.ofText names source) front line more before row s) (hl : s.lookahead = [])
    (hs : s.Sound) (hready : s.Ready) (hr : Round standIn b s b' t) :
    t.Behind names source (1 + newLines before) ∧
      ∀ p ∈ Dialogue.waiting t, p.About (1 + newLines before) := by
  rcases hr.row_cases hs h.ahead_eq h.isRow with
    ⟨l, hheight, rfl, p, ht⟩ | ⟨x, hx, rfl, p, -, rfl⟩
  · have hblock := l.block ⟨b, standIn⟩ true h hl hheight hs hready
    have hend := l.lookahead_ne_nil ⟨b, standIn⟩ hheight hs h.ahead_eq
    have hm := l.allLegal_moves ⟨b, standIn⟩ hheight
    rw [l.tokens_eq_body] at h hm
    have htaken : taken (l.moves ⟨b, standIn⟩) = l.body ++ taken l.stop.moves := by
      rw [l.taken_moves, l.takes_eq_body]
    have hhalted := p.halted.trans hready.halted
    have hfinished := p.finished.trans hready.finished
    have hwaiting : Dialogue.waiting (s.acts (l.moves ⟨b, standIn⟩)) =
        (s.acts (l.moves ⟨b, standIn⟩)).queue.map .output := by
      rw [Dialogue.waiting, p.failure, hready.failure]
      exact List.append_nil _
    have habout := hblock.about
    rw [← hwaiting] at habout
    -- the line is passed, or it is the end of the input and the script stops
    rcases ht with ⟨-, rfl⟩ | ⟨hres, -, rfl⟩
    · exact ⟨h.behind_past hs hm htaken hend rfl rfl (hhalted.trans hfinished.symm)
        fun _ => hhalted, habout⟩
    · refine ⟨h.behind_past hs hm htaken hend rfl rfl rfl fun hk => ?_, habout⟩
      rw [Line.kind_stop_of_result hres] at hk
      cases hk
  · -- nothing behind the fatal diagnostic was read yet
    have hquiet : ∀ o ∈ ([] : List Output), o.isLexical = true := by simp
    have hread : ([] : List Output) = (Reading.diagnostics []).map .diagnostic := rfl
    have hblock : Block true _ _ := x.block ⟨b, standIn⟩ h hl hx hs hready hquiet (fun _ => rfl) hread
      fun _ _ => List.nil_prefix
    obtain ⟨line', hr'⟩ := h.acts_slip ⟨b, standIn⟩ hs hx
    obtain ⟨body, stop, hbody⟩ := hr'.exists_stop
    rw [hbody] at hr'
    refine ⟨.failed (hr'.congr rfl rfl) ?_ rfl (p.finished.trans hready.finished), fun o ho => ?_⟩
    · rw [h.newLines_slip]
    · have habout := hblock.about
      rw [List.map_append, List.forall_mem_append] at habout
      rcases List.mem_append.mp ho with ho | ho
      · exact habout.1 o ho
      · obtain rfl := List.mem_singleton.mp ho
        intro d hd
        obtain rfl := Option.some.inj hd
        exact hblock.line _ (by simp)

/-- When what is left of a row is skipped, nothing behind it is read, and what is read of it is about
its line. -/
theorem InRow.behind_resumed {body : List Token}
    (h : InRow (Reading.ofText names source) front line more before (body ++ [stop.1]) s)
    (hs : s.Sound) (hf : s.finished = false) :
    (s.resumed body stop).Behind names source (1 + newLines before) ∧
      ∀ p ∈ Dialogue.waiting (s.resumed body stop),
        p ∈ Dialogue.waiting s ∨ p.About (1 + newLines before) := by
  have hp : InRow _ front line more before (body ++ [stop.1]) s.pardoned := h.congr rfl rfl
  have hm := allLegal_skipMoves stop h.isRow.body_inside
  have p := hp.progress hm
  constructor
  · exact hp.behind_past hs.pardoned hm (Feed.taken_skipMoves body stop)
      (resumed_lookahead_ne_nil hs p.legal) rfl rfl (p.finished.trans hf).symm fun _ => rfl
  · obtain ⟨read, hread, hq⟩ := p.exists_read hs.lexical (Feed.outputs_skipMoves body stop)
    obtain ⟨read', rest, -, hline, hrest, -⟩ := hp.exists_read hs.pardoned.lexical hm
    -- what skipping reads is what is left of the line
    obtain rfl : read = read' := by
      rw [hp.unread, hline, hrest, List.append_assoc] at hread
      exact (List.append_cancel_right hread).symm
    have hwaiting : Dialogue.waiting (s.resumed body stop) =
        s.queue.map .output ++ ((Reading.diagnostics read).map Output.diagnostic).map .output := by
      have hq' : (s.resumed body stop).queue = _ := hq
      have hf' : (s.resumed body stop).failure = none := p.failure
      rw [Dialogue.waiting, hq', hf', List.map_append]
      exact List.append_nil _
    intro o ho
    rw [hwaiting] at ho
    rcases List.mem_append.mp ho with ho | ho
    · exact .inl (List.mem_append_left _ ho)
    · right
      intro d hd
      simp only [List.map_map, List.mem_map, Function.comp_apply] at ho
      obtain ⟨d', hmem, rfl⟩ := ho
      obtain rfl := Option.some.inj hd
      obtain ⟨r, hr, hi⟩ := Reading.mem_diagnostics.mp hmem
      have hin : r ∈ line := by
        rw [hline]
        exact List.mem_append_left _ hr
      rw [← h.line_of_mem_line hin, Reading.span, hi]

end

/-- What a turn of the loop does: it evaluates the next line, and what waits then is about this line;
or it finds the end of the input, and nothing waits. -/
theorem Script.Behind.round (h : s.Behind names source k) (hs : s.Sound)
    (hr : Round standIn b s b' t) :
    (s.AtLine names source (k + 1) ∧ t.Behind names source (k + 1) ∧
      ∀ p ∈ Dialogue.waiting t, p.About (k + 1)) ∨
    t.Behind names source k ∧ Dialogue.waiting t = [] ∧ t.halted = t.finished := by
  have hdue := hr.due
  cases h with
  | failed h hk hh => exact absurd hdue (not_due_of_halted hh)
  | ended h hstop hl hk hh =>
    rw [← hk]
    exact .inr (h.round_endOfInput hstop hl hs hr)
  | passed hl hd hk hh hf =>
    obtain ⟨line, more, row, hrow⟩ := InRow.exists_of_lookahead_eq_nil hs hl _
    rw [← hd] at hrow
    have hnext := hrow.round_line hl hs ⟨hdue.queue, hdue.failure, hh, hf⟩ hr
    rw [hk.lines, Nat.add_comm] at hnext
    exact .inl ⟨⟨hl, _, hd, by rw [hk.lines, Nat.add_comm]⟩, hnext⟩

/-- So the loop evaluates line after line, as far as it goes. -/
theorem Rounds.exists_behind (h : Rounds standIn b s b' t) (hs : s.Sound)
    (hb : ∃ k, s.Behind names source k) : ∃ k, t.Behind names source k := by
  refine h.induct (P := fun _ s => ∃ k, s.Behind names source k) hs (fun hs hr ⟨k, hk⟩ => ?_) hb
  rcases hk.round hs hr with ⟨-, h, -⟩ | ⟨h, -⟩
  · exact ⟨_, h⟩
  · exact ⟨_, h⟩

/-- The loop makes no turn, or there is a last one. -/
theorem Rounds.cases_last (h : Rounds standIn b s b' t) :
    (b = b' ∧ s = t) ∨ ∃ b₁ s₁, Rounds standIn b s b₁ s₁ ∧ Round standIn b₁ s₁ b' t := by
  induction h with
  | refl => exact .inl ⟨rfl, rfl⟩
  | step h _ ih =>
    rcases ih with ⟨rfl, rfl⟩ | ⟨b₂, s₂, hr, hl⟩
    · exact .inr ⟨_, _, .refl _ _, h⟩
    · exact .inr ⟨b₂, s₂, .step h hr, hl⟩

namespace Dialogue

variable {d : Dialogue} {q : Request} {qs : List Request}

/-! ### The statements of a dialogue -/

/-- It is the latest statement: the loop ended with it, and since then no statement was due. -/
def Latest (d : Dialogue) (qs : List Request) (b : Bindings) (s : Script) : Prop :=
  ∃ before since, qs = before ++ .next :: since ∧
    Rounds (fun _ => .int 0) (d.serve before).2.bindings (d.serve before).2.script b s ∧
    (∃ b' t, Round (fun _ => .int 0) b s b' t ∧ ¬t.Due) ∧
    ∀ mid, mid ++ [.next] <+: since → ¬(d.serve (before ++ .next :: mid)).2.script.Due

theorem Latest.concat (h : d.Latest qs b s) (hq : q = .next → ¬(d.serve qs).2.script.Due) :
    d.Latest (qs ++ [q]) b s := by
  obtain ⟨before, since, rfl, hr, hl, hmid⟩ := h
  refine ⟨before, since ++ [q], by simp, hr, hl, fun mid hp => ?_⟩
  rcases List.prefix_concat_iff.mp hp with he | hp
  · obtain ⟨rfl, hq'⟩ := List.append_inj' he rfl
    exact hq (List.singleton_inj.mp hq').symm
  · exact hmid mid hp

theorem latest_next (hr : Rounds (fun _ => .int 0) (d.serve qs).2.bindings (d.serve qs).2.script b s)
    (hl : Round (fun _ => .int 0) b s b' t) (ht : ¬t.Due) : d.Latest (qs ++ [.next]) b s :=
  ⟨qs, [], rfl, hr, ⟨b', t, hl, ht⟩, fun mid hp => by simp at hp⟩

/-! ### What waits -/

/-- What is known when the requests `qs` were answered: no line behind `k` was touched, and what waits
comes from the statement on this line and is about it. -/
structure Traced (names : NameGrammar) (source : String) (d : Dialogue) (qs : List Request) (k : Nat) :
    Prop where
  behind : (d.serve qs).2.script.Behind names source k
  about : ∀ p ∈ waiting (d.serve qs).2.script, p.About k
  latest : waiting (d.serve qs).2.script ≠ [] ∨
      (d.serve qs).2.script.halted ≠ (d.serve qs).2.script.finished →
    ∃ b s, d.Latest qs b s ∧ s.AtLine names source k

/-- The statement on the line `k` is the latest one, and what was handed over is about this line. -/
structure Caused (names : NameGrammar) (source : String) (d : Dialogue) (qs : List Request) (k : Nat)
    (p : Pulled) : Prop where
  latest : ∃ b s, d.Latest qs b s ∧ s.AtLine names source k
  about : p.About k

theorem waiting_handOver (s : Script) : ∀ p ∈ waiting s.handOver.2, p ∈ waiting s := by
  rcases s.handOver_cases with ⟨o, rest, hq, ho⟩ | ⟨e, hq, hf, ho⟩ | ⟨-, -, ho⟩
  · rw [ho, waiting, waiting, hq]
    intro p hp
    exact List.mem_cons_of_mem _ hp
  · rw [ho]
    intro p hp
    rw [waiting, hq] at hp
    cases hp
  · rw [ho]
    exact fun p hp => hp

/-- What is handed over did wait. -/
theorem mem_waiting_of_handed (s : Script) {p : Pulled}
    (h : Answer.handed? (.pulled s.handOver.1) = some p) : p ∈ waiting s := by
  rcases s.handOver_cases with ⟨o, rest, hq, ho⟩ | ⟨e, hq, hf, ho⟩ | ⟨-, -, ho⟩
  · rw [ho] at h
    obtain rfl := Option.some.inj h
    rw [waiting, hq]
    exact List.mem_cons_self
  · rw [ho] at h
    obtain rfl := Option.some.inj h
    rw [waiting, hq, hf]
    exact List.mem_cons_self
  · rw [ho] at h
    cases h

/-- Handing something over touches no further line. -/
theorem Traced.handOver (hserve : (d.serve qs).2 = ⟨t.handOver.2, b⟩)
    (hb : t.Behind names source k) (ha : ∀ p ∈ waiting t, p.About k)
    (hl : waiting t ≠ [] ∨ t.halted ≠ t.finished →
      ∃ b s, d.Latest qs b s ∧ s.AtLine names source k) :
    Traced names source d qs k ∧ ∀ p, Answer.handed? (.pulled t.handOver.1) = some p →
      Caused names source d qs k p := by
  obtain ⟨queue, failure, he⟩ := t.exists_handOver_eq
  refine ⟨⟨?_, ?_, ?_⟩, fun p hp => ?_⟩
  · rw [hserve, he]
    exact hb.congr rfl rfl rfl rfl
  · rw [hserve]
    exact fun p hp => ha p (waiting_handOver t p hp)
  · rw [hserve]
    rintro (hne | hne)
    · obtain ⟨p, hp⟩ := List.exists_mem_of_ne_nil _ hne
      exact hl (.inl (List.ne_nil_of_mem (waiting_handOver t p hp)))
    · rw [he] at hne
      exact hl (.inr hne)
  · have hmem := mem_waiting_of_handed t hp
    exact ⟨hl (.inl (List.ne_nil_of_mem hmem)), ha p hmem⟩

variable {bindings : Bindings}

/-- For the next output line after line is evaluated, until one has something to hand over. -/
theorem Traced.next (h : Traced names source (ofText names source bindings) qs k) :
    ∃ k', Traced names source (ofText names source bindings) (qs ++ [.next]) k' ∧
      ∀ p, ((((ofText names source bindings).serve qs).2.answer .next).1).handed? = some p →
        Caused names source (ofText names source bindings) (qs ++ [.next]) k' p := by
  generalize hd : ofText names source bindings = d at h ⊢
  have hs : (d.serve qs).2.script.Sound := hd ▸ sound_serve (sound_ofText names source) qs
  obtain ⟨b', t, hr, ht, ha⟩ := exists_rounds_answer hs
  have hserve : (d.serve (qs ++ [.next])).2 = ⟨t.handOver.2, b'⟩ := by
    rw [serve_concat, ha]
  rw [ha]
  rcases hr.cases_last with ⟨-, rfl⟩ | ⟨b₁, s₁, hr₁, hl⟩
  · -- something waited already
    refine ⟨k, Traced.handOver hserve h.behind h.about fun hne => ?_⟩
    obtain ⟨b, s, hlatest, hk⟩ := h.latest hne
    exact ⟨b, s, hlatest.concat fun _ => ht, hk⟩
  · obtain ⟨k₁, hk₁⟩ := hr₁.exists_behind hs ⟨k, h.behind⟩
    rcases hk₁.round (hr₁.sound hs) hl with ⟨hat, hb, habout⟩ | ⟨hb, hnil, hflags⟩
    · exact ⟨k₁ + 1, Traced.handOver hserve hb habout fun _ => ⟨b₁, s₁, latest_next hr₁ hl ht, hat⟩⟩
    · refine ⟨k₁, Traced.handOver hserve hb (by simp [hnil]) fun hne => ?_⟩
      rcases hne with hne | hne
      · exact absurd hnil hne
      · exact absurd hflags hne

/-- Recovering reads what is left of the line that failed. -/
theorem Traced.recover (h : Traced names source (ofText names source bindings) qs k) :
    Traced names source (ofText names source bindings) (qs ++ [.recover]) k := by
  generalize hd : ofText names source bindings = d at h ⊢
  have hs : (d.serve qs).2.script.Sound := hd ▸ sound_serve (sound_ofText names source) qs
  have hlatest : ∀ {b s}, d.Latest qs b s → d.Latest (qs ++ [.recover]) b s :=
    fun h => h.concat nofun
  rcases answer_recover_cases hs with hr | ⟨hh, hf, -⟩
  · have hserve : (d.serve (qs ++ [.recover])).2 = (d.serve qs).2 := by rw [serve_concat, hr]
    refine ⟨hserve ▸ h.behind, hserve ▸ h.about, fun hne => ?_⟩
    obtain ⟨b, s, hl, hk⟩ := h.latest (hserve ▸ hne)
    exact ⟨b, s, hlatest hl, hk⟩
  · obtain ⟨b, s, hl, hk⟩ := h.latest (.inr (by simp [hh, hf]))
    -- a script that may recover has failed in a row, and skips the rest of it
    cases h.behind with
    | passed hl hd hk hh' => simp [hh'] at hh
    | ended h hs hl hk hh' => simp [hh', hf] at hh
    | @failed front line more before body stop hrow hline =>
      obtain ⟨-, hr⟩ :=
        exists_answer_recover hs hh hf stop hrow.ahead_eq_body hrow.isRow.body_inside
      have hserve : (d.serve (qs ++ [.recover])).2 =
          ⟨(d.serve qs).2.script.resumed body stop, (d.serve qs).2.bindings⟩ := by
        rw [serve_concat, hr]
      obtain ⟨hb, habout⟩ := hrow.behind_resumed hs hf
      rw [hline] at hb habout
      refine ⟨hserve ▸ hb, ?_, fun _ => ⟨b, s, hlatest hl, hk⟩⟩
      rw [hserve]
      exact fun p hp => (habout p hp).elim (h.about p) id

/-- Whatever is asked, there is a line up to which the text was evaluated, and what the last answer
handed over comes from this line. -/
theorem exists_traced (names : NameGrammar) (source : String) (bindings : Bindings)
    (qs : List Request) : ∃ k, Traced names source (ofText names source bindings) qs k ∧
      ∀ p, (((ofText names source bindings).serve qs).1.getLast?.bind Answer.handed?) = some p →
        Caused names source (ofText names source bindings) qs k p := by
  induction qs using List.reverseRecOn with
  | nil => exact ⟨0, ⟨behind_ofText names source, nofun, by simp [waiting, serve, ofText,
      Script.ofText, Script.ofReadings]⟩, nofun⟩
  | append_singleton qs q ih =>
    obtain ⟨k, h, -⟩ := ih
    rw [serve_concat, List.getLast?_concat]
    cases q with
    | next =>
      obtain ⟨k', h', hp⟩ := h.next
      exact ⟨k', h', hp⟩
    | recover =>
      refine ⟨k, h.recover, fun p hp => ?_⟩
      -- recovering hands nothing over
      rw [Option.bind_some, answer] at hp
      split at hp <;> cases hp

/-- Every statement of a dialogue stays on its line. -/
theorem Meets.exists_stays (h : (ofText names source bindings).Meets qs b s) :
    ∃ k u, s.OnLine names source k ∧ FirstLines k u source.toList ∧
      ∀ standIn b, Stays names source k u (Work.statement standIn ⟨s, b⟩) := by
  obtain ⟨hdue, before, -, hr⟩ := h
  obtain ⟨k, hk, -⟩ := exists_traced names source bindings before
  have hs := sound_serve (d := ofText names source bindings) (sound_ofText names source) before
  obtain ⟨k', hk'⟩ := hr.exists_behind hs ⟨k, hk.behind⟩
  obtain ⟨front, line, more, taken, row, hrow⟩ := hk'.exists_inRow (hr.sound hs)
  refine ⟨1 + newLines taken, _, ⟨_, _, _, _, _, hrow, rfl⟩, hrow.firstLines, ?_⟩
  have hlen := hk'.length_lookahead_le hdue.halted
  exact hrow.stays (hr.sound hs) (Nat.le_succ_of_le hlen)

end Dialogue

end LineCalc
