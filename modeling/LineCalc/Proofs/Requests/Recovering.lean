import LineCalc.Proofs.Requests.Reach
import LineCalc.Proofs.Requests.Termination

/-!
# What is left after recovering

A script recovers if a fatal diagnostic was the last thing that came about, and not otherwise. It then
has read the lines of the text up to the failing one, and what is left is the text behind them. If the
failing line is the last one of the text, or nothing stands behind its line break, then nothing is
left, and still the answer is that the script has recovered.
-/

namespace LineCalc

open Grammar Move Script

variable {names : NameGrammar} {source : String} {standIn : Span → Number} {b b' : Bindings}
variable {s t u : Script}

/-! ### What fails is fatal -/

/-- All that the script has told as a failure are fatal diagnostics. -/
def Script.FailsFatally (s : Script) : Prop := ∀ e, .failure e ∈ s.told → e.isFatal = true

namespace Script.FailsFatally

theorem of_tells (h : s.FailsFatally) (ht : s.Tells t) : t.FailsFatally := by
  obtain ⟨new, htold, -⟩ := ht
  intro e he
  rw [htold, List.mem_append] at he
  rcases he with he | he
  · exact h e he
  · obtain ⟨o, -, ho⟩ := List.mem_map.mp he
    cases ho

theorem halt (h : s.FailsFatally) {d : Diagnostic} (hd : d.isFatal = true) :
    (s.halt d).FailsFatally := by
  intro e he
  have htold : (s.halt d).told = s.told ++ [.failure d] := told_logged s (.halted d)
  rw [htold, List.mem_append, List.mem_singleton] at he
  rcases he with he | he
  · exact h e he
  · obtain rfl := Pulled.failure.inj he
    exact hd

theorem round (h : s.FailsFatally) (hs : s.Sound) (hr : Round standIn b s b' t) :
    t.FailsFatally := by
  obtain ⟨row, rest, ha, hrow⟩ := hs.exists_row
  rcases hr.row_cases hs ha hrow with
    ⟨l, -, -, -, ⟨-, rfl⟩ | ⟨-, -, rfl⟩⟩ | ⟨x, hx, -, -, -, rfl⟩
  · exact h.of_tells (tells_acts (l.plain_moves _) s)
  · exact h.of_tells (tells_acts (l.plain_moves _) s)
  · have hm : ∀ y ∈ x.moves ⟨b, standIn⟩, y.Plain := fun y hy => (x.quiet_moves _ y hy).plain
    exact (h.of_tells (tells_acts hm s)).halt hx.isFatal

theorem handOver (h : s.FailsFatally) : s.handOver.2.FailsFatally := by
  obtain ⟨queue, failure, hs⟩ := s.exists_handOver_eq
  rw [hs]
  exact h

end Script.FailsFatally

/-- Whatever is asked of the script of a text, only fatal diagnostics make it fail. -/
theorem Script.Reachable.failsFatally (h : Reachable (.ofText names source) s) : s.FailsFatally := by
  induction h with
  | start => exact fun e he => by cases he
  | next h standIn b ih =>
    have hs := h.sound (sound_ofText names source)
    obtain ⟨b', t, hr, -, hn⟩ := exists_rounds hs standIn b
    rw [hn]
    exact (hr.induct (P := fun _ s => s.FailsFatally) hs (fun hs hr h => h.round hs hr) ih).handOver
  | @recover s s' r h hr ih =>
    have hs := h.sound (sound_ofText names source)
    have ha : Dialogue.answer ⟨s, {}⟩ .recover = (.recovered r, ⟨s', {}⟩) := by
      rw [Dialogue.answer, hr]
    rcases Dialogue.answer_recover_cases (d := ⟨s, {}⟩) hs with
      he | ⟨-, -, body, rest, stop, -, -, -, he⟩
    · obtain rfl : s' = s := congrArg (·.2.script) (ha.symm.trans he)
      exact ih
    · obtain rfl : s' = s.resumed body stop := congrArg (·.2.script) (ha.symm.trans he)
      exact ih.of_tells (tells_acts (plain_skipMoves body stop) s.pardoned)

/-! ### Recovering -/

/-- The script `s` had stopped at the fatal diagnostic `e`, and goes on as `u`. It has read the lines
`front` of the text, of which the failing line is the last, and `back` is the text behind. -/
structure Script.GoesOn (names : NameGrammar) (source : String) (s u : Script) (e : Diagnostic)
    (front back : List Char) : Prop where
  halted : s.halted = true ∧ s.finished = false
  /-- The last thing that came about is the fatal diagnostic. -/
  failed : s.told.getLast? = some (.failure e)
  fatal : e.isFatal = true
  text : source.toList = front ++ back
  lines : FirstLines e.span.start.line front source.toList
  /-- The rest of the failing line was discarded, and nothing else. -/
  read : u.HasRead names source front
  left : u.input = back.length
  goes : u.halted = false ∧ u.failure = none

/-- Skipping what is left of a row leaves what stands behind it. -/
theorem InRow.left_resumed {front line more : List Reading} {before body : List Token}
    {stop : LineEnd}
    (h : InRow (Reading.ofText names source) front line more before (body ++ [stop.1]) s)
    (hs : s.Sound) : (s.resumed body stop).unread = more ∧
      (s.resumed body stop).input = (Reading.text more).length := by
  have hp : InRow _ front line more before (body ++ [stop.1]) s.pardoned := h.congr rfl rfl
  have hlegal := allLegal_skipMoves stop h.isRow.body_inside
  have hahead : AllLegal s.ahead (Feed.skipMoves body stop) := by
    rw [h.ahead_eq]
    exact hlegal.append_right _
  rcases hp.lookahead_past hs.pardoned hlegal (Feed.taken_skipMoves body stop)
      fun hk => resumed_lookahead_ne_nil hs hahead hk with ⟨-, hl, hu⟩ | ⟨hk, hl, hu⟩
  · have hl : (s.resumed body stop).lookahead = [] := hl
    have hu : (s.resumed body stop).unread = more := hu
    rw [input, hl, hu]
    exact ⟨rfl, rfl⟩
  · have hl : (s.resumed body stop).lookahead = [stop.1] := hl
    have hu : (s.resumed body stop).unread = [] := hu
    have hinner : innerTokens [stop.1] = 0 := by simp [innerTokens, hk]
    rw [input, hl, hu, h.more_eq_nil hk, hinner]
    exact ⟨rfl, rfl⟩

/-- **What the answer to a request to recover tells.** Whatever was asked of the script of a text
before, the script recovers just when a fatal diagnostic has stopped it. What is left then is the text
behind the failing line. So the answer does not tell that something is left: that is so just when the
failing line, with its line break, is not the end of the text. -/
theorem Feed.recover_tells (names : NameGrammar) (source : String) {s : Script}
    (h : Reachable (.ofText names source) s) :
    recover s = .ok false s ∧ (s.halted = false ∨ s.finished = true) ∨
    ∃ u e front back, recover s = .ok true u ∧ s.GoesOn names source u e front back ∧
      (0 < u.input ↔ front ≠ source.toList) := by
  have hs := h.sound (sound_ofText names source)
  by_cases hstop : s.halted = false ∨ s.finished = true
  · exact .inl ⟨recover_eq_false hstop, hstop⟩
  · right
    simp only [not_or, Bool.not_eq_false, Bool.not_eq_true] at hstop
    obtain ⟨hh, hn⟩ := hstop
    obtain ⟨front, line, more, before, row, hrow, hstands⟩ := h.standing.row
    -- the fatal diagnostic was told last, and stands where the row got stuck
    obtain ⟨e, tok, rest, hlast, hrowt, hspan⟩ := hstands hh hn
    have hline : e.span.start.line = 1 + newLines before := by
      rw [hspan]
      exact (hrowt ▸ hrow).line_eq
    have hlines := hline ▸ hrow.firstLines
    have htext : source.toList = Reading.text front ++ Reading.text more := by
      rw [← Reading.text_append, ← hrow.whole]
      exact (Reading.flatMap_chars_ofText names source).symm
    obtain ⟨body, stop, rfl⟩ := hrow.exists_stop
    obtain ⟨t, hr, p⟩ := recover_eq hs.room hh hn stop hrow.ahead_eq_body hrow.isRow.body_inside
    obtain rfl := p.acts
    obtain ⟨hunread, hinput⟩ := hrow.left_resumed hs
    refine ⟨s.resumed body stop, e, _, _, hr, ⟨⟨hh, hn⟩, hlast, ?_, htext, hlines, ?_, hinput, rfl,
      p.failure⟩, ?_⟩
    · exact h.failsFatally e (List.mem_of_getLast? hlast)
    · exact ⟨front, by rw [hunread, hrow.whole], rfl⟩
    · rw [hinput, htext, List.length_pos_iff, ne_eq, ne_eq, List.self_eq_append_right]

/-- In front of another line something is left. -/
theorem Feed.recover_tells_before_line :
    let s := ((Script.ofText .free "1 +\n2").next (fun _ => .int 0) {}).2.2
    Reachable (.ofText .free "1 +\n2") s ∧
    (recover s = .ok false s ∧ (s.halted = false ∨ s.finished = true) ∨
    ∃ u e front back, recover s = .ok true u ∧ s.GoesOn .free "1 +\n2" u e front back ∧
      (0 < u.input ↔ front ≠ "1 +\n2".toList)) := by
  have h : Reachable (.ofText .free "1 +\n2") _ := Reachable.start.next (fun _ => .int 0) {}
  exact ⟨h, Feed.recover_tells .free "1 +\n2" h⟩

/-- Behind a failing line that ends the text nothing is left, and the script recovers all the same. -/
theorem Feed.recover_at_end : ¬∀ names source s u, Reachable (.ofText names source) s →
    recover s = .ok true u → 0 < u.input := by
  intro hleft
  have h : Reachable (.ofText .free "1 +") _ := Reachable.start.next (fun _ => .int 0) {}
  obtain ⟨r, u, hr, -⟩ := recover_sound (h.sound (Script.sound_ofText ..))
  let d : Dialogue := ⟨((Script.ofText .free "1 +").next (fun _ => .int 0) {}).2.2, {}⟩
  have hd : d.answer .recover = (.recovered r, ⟨u, {}⟩) := by rw [Dialogue.answer, hr]
  have htold : ((d.answer .recover).1 == .recovered true) = true := by decide +kernel
  have hnothing : (d.answer .recover).2.script.input = 0 := by decide +kernel
  rw [hd] at htold hnothing
  cases r with
  | false => cases htold
  | true => exact (hleft _ _ _ u h hr).ne' hnothing

end LineCalc
