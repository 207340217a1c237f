import LineCalc.Proofs.Evaluation.Displaced
import LineCalc.Proofs.Session.Extend
import LineCalc.Proofs.Session.Likeness

/-!
# Texts one behind the other

A text that ends with its last line can be run by itself, and what stands behind it afterwards:
together the two runs give what one run of both texts gives, but for the places of the second. What
happened on one line has no effect on how the next one is read, not even if it failed. If the first
text does not complete, the second one is not read at all.
-/

namespace LineCalc

variable {standIn : Span → Number} {b b' : Bindings} {s s' t : Script}
variable {c c' : Bool} {os : List Output} {d : Displacement}

/-! ### Runs further down -/

theorem Displaced.finish (h : Displaced d s s') : Displaced d s.finish s'.finish :=
  { h with halted := rfl, finished := rfl }

theorem Runs.displaced (hi : ∀ p, standIn (p.down d.lines) = standIn p) (h : Displaced d s s')
    (hr : Runs c standIn b s os c' b' t) :
    ∃ t', Runs c standIn b s' (os.map (Output.down d.lines)) c' b' t' ∧ Displaced d t t' := by
  obtain ⟨os', t', hr', hos, hlike⟩ :=
    hr.like (fun p p' hp => hp ▸ hi p) (displaced_iff.mp h)
  obtain rfl := (forall₂_iff_eq_map (Output.like_down_iff d.lines)).mp hos
  exact ⟨t', hr', displaced_iff.mpr hlike⟩

/-- A statement starts by clearing away what the one before it left. -/
theorem Runs.of_cleared (h : Runs c standIn b s.cleared os c' b' t) :
    Runs c standIn b s os c' b' t := by
  have hst : Work.statement standIn ⟨s.cleared, b⟩ = Work.statement standIn ⟨s, b⟩ := rfl
  cases h with
  | last h =>
    refine .last ?_
    cases h with
    | done h => exact .done (hst ▸ h)
    | stop hk h => exact .stop hk (hst ▸ h)
  | pass h rest =>
    refine .pass ?_ rest
    cases h with
    | line h => exact .line (hst ▸ h)
    | skip hk h hr => exact .skip hk (hst ▸ h) hr

/-! ### Where whole lines end -/

namespace Script

variable {place : Cursor} {n : Nat}

/-- The script when it has looked at the end of the input, and cleared away what was left. -/
def atEnd (s : Script) (place : Cursor) (n : Nat) : Script :=
  { s with
    unread := []
    size := n
    lookahead := [Reading.endToken place]
    fault := none
    depth := 0 }

theorem acts_extend_end (hl : s.lookahead = []) (hu : s.unread = []) :
    (s.extend [⟨[], .ok (Reading.endToken place)⟩] n).acts [.clear, .look 0] = s.atEnd place n := by
  obtain ⟨unread, size, lookahead⟩ := s
  cases hl
  cases hu
  rfl

end Script

/-- Where nothing but the end of the input follows, a run is complete, and counts nothing more. -/
theorem runs_end (c : Bool) (standIn : Span → Number) (b : Bindings) (hr : s.Ready)
    (hl : s.lookahead = []) (hu : s.unread = []) (place : Cursor) {n : Nat} (hn : 0 < n) :
    Runs c standIn b (s.extend [⟨[], .ok (Reading.endToken place)⟩] n) [] true b
      (s.atEnd place n).finish.flushed := by
  have ha : (s.extend [⟨[], .ok (Reading.endToken place)⟩] n).ahead =
      (Grammar.Line.blank ⟨Reading.endToken place, rfl⟩).tokens ++ [] := by
    rw [Script.ahead_extend, Script.ahead, hl, hu]
    rfl
  have he : Ends c standIn b (s.extend _ n) _ true _ :=
    .of_line c (.blank ⟨Reading.endToken place, rfl⟩) (Nat.zero_le _) ha (by rw [ha]; exact hn) rfl
  have hm : (Grammar.Line.blank ⟨Reading.endToken place, rfl⟩).moves ⟨b, standIn⟩ =
      [.clear, .look 0] := rfl
  rw [hm, Script.acts_extend_end hl hu] at he
  have hq : (s.atEnd place n).queue = [] := hr.queue
  rw [hq] at he
  exact .last he

/-! ### Two texts -/

/-- Readings of whole lines make a script with whole lines ahead. -/
theorem whole_ofReadings {rs : List Reading} (hp : ∀ r ∈ rs, r.Proper)
    (hl : ∀ r, rs.getLast? = some r → ∃ t, r.item = .ok t ∧ t.kind = .newLine) :
    Whole (.ofReadings rs) := by
  have hm : ∀ t ∈ (Script.ofReadings rs).ahead, t.WellFormed ∧ t.kind ≠ .endOfInput := by
    intro t ht
    obtain ⟨r, hr, hi⟩ := Reading.mem_tokens.mp (show t ∈ Reading.tokens rs from ht)
    have h := hp r hr
    rwa [Reading.Proper, hi] at h
  refine ⟨fun t ht => ?_, fun r hr => ?_, fun t ht => (hm t ht).1, fun t ht => (hm t ht).2,
    fun r hr d hd => ?_, Reading.length_tokens_le rs⟩
  · rcases List.eq_nil_or_concat rs with rfl | ⟨rs, r, rfl⟩
    · cases ht
    · obtain ⟨tok, hi, hk⟩ := hl r (by simp)
      change (Reading.tokens (rs.concat r)).getLast? = some t at ht
      obtain ⟨chunks, item⟩ := r
      cases hi
      rw [List.concat_eq_append, Reading.tokens_append, Reading.tokens_ok, Reading.tokens_nil,
        List.getLast?_concat] at ht
      exact Option.some.inj ht ▸ hk
  · obtain ⟨tok, hi, -⟩ := hl r hr
    exact ⟨tok, hi⟩
  · have h := hp r hr
    rwa [Reading.Proper, hd] at h

theorem Script.ofReadings_append (rs more : List Reading) :
    ofReadings (rs ++ more) = (ofReadings rs).extend more (rs ++ more).length := rfl

theorem Script.holds_ofReadings (rs more : List Reading) :
    (ofReadings rs).Holds more (rs ++ more).length := by
  have := Reading.length_tokens_le (rs ++ more)
  rwa [Reading.tokens_append, List.length_append] at this

/-- What stands behind whole lines is the same text further down, once the lines are crossed. -/
theorem displaced_extend {rs : List Reading} {k n size : Nat} (hr : s.Ready)
    (hl : s.lookahead = []) (hu : s.unread = []) (hz : rs.length ≤ size) :
    Displaced ⟨k, n, s.readTally, s.evalTally⟩ (.ofReadings rs)
      (s.extend (rs.map (Reading.down k n)) size).cleared where
  unread := by
    show s.unread ++ _ = _
    rw [hu]
    rfl
  size := hz
  lookahead := hl
  queue := hr.queue
  fault := rfl
  failure := hr.failure
  depth := rfl
  halted := hr.halted
  finished := hr.finished
  readTally := rfl
  evalTally := rfl

/-- What a session makes of a text is what the run of the text puts out. -/
theorem Session.run_eq {names : NameGrammar} {keepGoing : Bool} {source : String}
    (h : Runs keepGoing (fun _ => .int 0) b (.ofText names source) os c b' t) :
    Session.run ⟨{ names, keepGoing }, b⟩ source =
      (Transcript.ofScript t os.toArray c, ⟨{ names, keepGoing }, b'⟩) := by
  have hr : (Script.ofText names source).run { names, keepGoing } b =
      (Transcript.ofScript t os.toArray c, b') := Runs.run_eq h (Script.sound_ofText names source)
  simp only [Session.run, hr]

/-- The run of two texts of which the first ends with its last line. Either the run of the first one
gets to its end, and whatever the second one does behind it is done in the run of both, further down
and with the counts added up; or it halts, and the run of both does nothing else. -/
theorem exists_runs_append {names : NameGrammar} {front back : String} (c : Bool)
    (standIn : Span → Number) (b : Bindings) (hf : front.toList = [] ∨ Ended front.toList)
    (hp : Parts front.toList back.toList)
    (hi : ∀ p, standIn (p.down (lineBreaks front.toList)) = standIn p) :
    (∃ os b' t, Runs c standIn b (.ofText names front) os true b' t ∧
      ∀ {os₂ c₂ b₂ t₂}, Runs c standIn b' (.ofText names back) os₂ c₂ b₂ t₂ →
        ∃ u, Runs c standIn b (.ofText names (front ++ back))
            (os ++ os₂.map (Output.down (lineBreaks front.toList))) c₂ b₂ u ∧
          u.readTally = t.readTally + t₂.readTally ∧ u.evalTally = t.evalTally + t₂.evalTally) ∨
    c = false ∧ ∃ os b' t u, Runs c standIn b (.ofText names front) os false b' t ∧
      Runs c standIn b (.ofText names (front ++ back)) os false b' u ∧
      ∀ outputs completed, Transcript.ofScript u outputs completed = .ofScript t outputs completed := by
  obtain ⟨rs, place, n, h₁, h₂, hl⟩ := Reading.ofText_append names hf hp
  obtain ⟨rs', taken, place', h₁', hpr⟩ := Reading.exists_of_ofText names front
  obtain ⟨rfl, -⟩ := List.append_inj' (h₁.symm.trans h₁') rfl
  have hfront : Script.ofText names front = _ :=
    (congrArg Script.ofReadings h₁).trans (Script.ofReadings_append ..)
  have hwhole : Script.ofText names (front ++ back) = _ :=
    (congrArg Script.ofReadings h₂).trans (Script.ofReadings_append ..)
  rcases (whole_ofReadings hpr hl).crosses_or_halts c standIn b ⟨rfl, rfl, rfl, rfl⟩ with
    ⟨os, b', t, hc, ht, hlk, hu⟩ | ⟨rfl, os, b', t, hh⟩
  · -- behind the lines in front stands the end of the input, or the second text further down
    left
    obtain ⟨-, hend⟩ := hc _ _ (Script.holds_ofReadings rs _)
    have hend := hend _ _ _ _ (runs_end c standIn b' ht hlk hu place (by simp))
    rw [← hfront, List.append_nil] at hend
    refine ⟨os, b', _, hend, fun {os₂ c₂ b₂ t₂} hback => ?_⟩
    have hz : (Reading.ofText names back).length ≤
        (rs ++ (Reading.ofText names back).map (Reading.down (lineBreaks front.toList) n)).length := by
      rw [List.length_append, List.length_map]
      exact Nat.le_add_left ..
    obtain ⟨u, hdown, hdu⟩ := hback.displaced hi (displaced_extend ht hlk hu hz)
    obtain ⟨-, hboth⟩ := hc _ _ (Script.holds_ofReadings rs _)
    have hboth := hboth _ _ _ _ hdown.of_cleared
    rw [← hwhole] at hboth
    exact ⟨u, hboth, hdu.readTally, hdu.evalTally⟩
  · -- whatever stands behind the lines in front, the run has halted before that
    right
    rw [hfront, hwhole]
    exact ⟨rfl, os, b', _, _, hh _ _ (Script.holds_ofReadings rs _),
      hh _ _ (Script.holds_ofReadings rs _), fun _ _ => rfl⟩

/-- **Texts compose at the end of a line.** Let the first of two texts be empty or end with a line
break that the second one leaves alone. If the run of the first one goes to its end, the run of both
gives what the two runs give one after the other, with the places of the second one further down and
the counts added up. Otherwise the second text changes nothing at all. -/
theorem Session.run_append (names : NameGrammar) (keepGoing : Bool) (bindings : Bindings)
    (front back : String) (hf : front.toList = [] ∨ Ended front.toList)
    (hp : Parts front.toList back.toList) :
    let session : Session := ⟨{ names, keepGoing }, bindings⟩
    let first := session.run front
    let second := first.2.run back
    let whole := session.run (front ++ back)
    (keepGoing = true ∨ first.1.completed = true →
      whole.2.bindings = second.2.bindings ∧
      whole.1.outputs =
        first.1.outputs ++ second.1.outputs.map (Output.down (lineBreaks front.toList)) ∧
      whole.1.completed = second.1.completed ∧
      whole.1.readTally = first.1.readTally + second.1.readTally ∧
      whole.1.evalTally = first.1.evalTally + second.1.evalTally) ∧
    (first.1.completed = false → whole = first) := by
  intro session first second whole
  rcases exists_runs_append keepGoing (fun _ => .int 0) bindings hf hp (fun _ => rfl) with
    ⟨os, b', t, hfront, hback⟩ | ⟨hk, os, b', t, u, hfront, hboth, hsame⟩
  · have hfirst : first = _ := Session.run_eq hfront
    obtain ⟨os₂, c₂, b₂, t₂, hrest, -⟩ := exists_runs keepGoing (fun _ => .int 0) b'
      (Script.sound_ofText names back) ⟨rfl, rfl, rfl, rfl⟩
    have hsecond : second = _ :=
      (congrArg (fun r => r.2.run back) hfirst).trans (Session.run_eq hrest)
    obtain ⟨u, hboth, hread, heval⟩ := hback hrest
    have hw : whole = _ := Session.run_eq hboth
    refine ⟨fun _ => ?_, fun h => ?_⟩
    · rw [hfirst, hsecond, hw]
      refine ⟨rfl, ?_, rfl, hread, heval⟩
      simp [Transcript.ofScript]
    · rw [hfirst] at h
      cases h
  · have hfirst : first = _ := Session.run_eq hfront
    have hw : whole = _ := Session.run_eq hboth
    refine ⟨fun h => ?_, fun _ => ?_⟩
    · rw [hfirst, hk] at h
      rcases h with h | h <;> cases h
    · rw [hfirst, hw, hsame]

/-- Behind a line that is broken off, and a line break of two characters. -/
theorem Session.run_append_brokenOff :
    let session : Session := ⟨{ names := .free, keepGoing := true }, {}⟩
    let first := session.run "1 +\r\n"
    let second := first.2.run "y"
    let whole := session.run ("1 +\r\n" ++ "y")
    Ended "1 +\r\n".toList ∧ Parts "1 +\r\n".toList "y".toList ∧
      lineBreaks "1 +\r\n".toList = 1 ∧
      whole.2.bindings = second.2.bindings ∧
      whole.1.outputs =
        first.1.outputs ++ second.1.outputs.map (Output.down (lineBreaks "1 +\r\n".toList)) ∧
      whole.1.completed = second.1.completed ∧
      whole.1.readTally = first.1.readTally + second.1.readTally ∧
      whole.1.evalTally = first.1.evalTally + second.1.evalTally := by
  have he : Ended "1 +\r\n".toList := ⟨['1', ' ', '+', '\r'], '\n', by decide, rfl⟩
  have hp : Parts "1 +\r\n".toList "y".toList := by
    unfold Parts
    decide
  exact ⟨he, hp, by decide,
    (Session.run_append .free true {} "1 +\r\n" "y" (.inr he) hp).1 (.inl rfl)⟩

end LineCalc
