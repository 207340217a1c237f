import LineCalc.Proofs.Transcript.Lines
import LineCalc.Proofs.Transcript.Origins
import LineCalc.Proofs.Transcript.Reserved

/-!
# Texts of one row

Where there is one row only, a run is over behind it. When all tokens in front of the end of the row are
taken, everything there was read. So a line puts out what was put out so far and what its moves still put
out, and a slip that is skipped what is left to be read.
-/

namespace LineCalc

open Grammar Move

variable {s t : Script} {m m' : List Move}
variable {front back rs : List Reading} {stop : LineEnd} {rest : List Token}

namespace Reading

/-- The end of a row, and behind a line break the end of the input. -/
inductive Closes : LineEnd → List Reading → Prop where
  | newLine {stop : LineEnd} {last : Token} {chunks chunks' : List Chunk}
      (hs : stop.1.kind = .newLine) (hl : last.kind = .endOfInput) :
      Closes stop [⟨chunks, .ok stop.1⟩, ⟨chunks', .ok last⟩]
  | endOfInput {stop : LineEnd} {chunks : List Chunk} (hs : stop.1.kind = .endOfInput) :
      Closes stop [⟨chunks, .ok stop.1⟩]

namespace Closes

theorem diagnostics (h : Closes stop back) : Reading.diagnostics back = [] := by
  cases h <;> rfl

theorem exists_cons (h : Closes stop back) :
    ∃ chunks more, back = ⟨chunks, .ok stop.1⟩ :: more ∧ Reading.diagnostics more = [] := by
  cases h with
  | newLine hs hl => exact ⟨_, _, rfl, rfl⟩
  | endOfInput hs => exact ⟨_, _, rfl, rfl⟩

theorem exists_last (h : Closes stop back) :
    ∃ last : LineEnd, last.1.kind = .endOfInput ∧ tokens back = taken stop.moves ++ [last.1] := by
  cases h with
  | @newLine last _ _ hs hl =>
    exact ⟨⟨last, by rw [hl]; rfl⟩, hl, by rw [LineEnd.taken_moves_of_newLine hs]; rfl⟩
  | endOfInput hs => exact ⟨stop, hs, by simp [LineEnd.moves, hs]⟩

end Closes

/-- Where fewer tokens are left than stand at the end, nothing of what is in front is left. -/
theorem diagnostics_of_suffix (h : rs <:+ front ++ back) (hd : diagnostics back = [])
    (hlt : (tokens rs).length < (tokens back).length) : diagnostics rs = [] := by
  rcases List.suffix_or_suffix_of_suffix h (List.suffix_append front back) with
    ⟨pre, hpre⟩ | ⟨pre, rfl⟩
  · rw [← hpre, diagnostics_append, List.append_eq_nil_iff] at hd
    exact hd.2
  · rw [tokens_append, List.length_append] at hlt
    omega

end Reading

open Reading (Closes)

theorem Progress.unread_suffix (p : Progress s m t) (hs : s.Lexical) : t.unread <:+ s.unread := by
  obtain ⟨read, new, hu, -⟩ := p.queue hs
  exact ⟨read, hu.symm⟩

theorem Script.length_ahead_eq (s : Script) :
    s.ahead.length = s.lookahead.length + (Reading.tokens s.unread).length := List.length_append

/-- When all tokens in front were taken, and the next one was looked at, nothing that is still to be
read is wrong. So from there on only the moves put out. -/
theorem Script.Sound.queue_acts_append (hs : s.Sound) (hlook : s.lookahead = [])
    (hu : s.unread = front ++ back) (hd : Reading.diagnostics back = [])
    (hm : AllLegal s.ahead (m ++ .look 0 :: m')) (ht : taken m = Reading.tokens front) :
    (s.acts (m ++ .look 0 :: m')).queue = (s.acts (m ++ [.look 0])).queue ++ outputs m' := by
  have hsplit : m ++ .look 0 :: m' = m ++ [.look 0] ++ m' := by simp
  rw [hsplit, allLegal_append] at hm
  obtain ⟨hm, hm'⟩ := hm
  have p := Script.progress_acts hm
  have htaken : taken (m ++ [.look 0]) = Reading.tokens front := by simp [ht]
  rw [p.ahead, List.drop_left] at hm'
  have q := Script.progress_acts hm'
  have hahead : (s.acts (m ++ [.look 0])).ahead = Reading.tokens back := by
    refine p.ahead_eq ?_
    rw [Script.ahead, hlook, hu, htaken, Reading.tokens_append, List.nil_append]
  have hlooked : (s.acts (m ++ [.look 0])).lookahead ≠ [] := by
    rw [Script.acts_append]
    exact act_look_lookahead_ne_nil
      (hs.progress (Script.progress_acts (allLegal_append.mp hm).1)).length_ahead_pos
  have hread : Reading.diagnostics (s.acts (m ++ [.look 0])).unread = [] := by
    refine Reading.diagnostics_of_suffix (hu ▸ p.unread_suffix hs.lexical) hd ?_
    rw [← hahead, Script.length_ahead_eq]
    exact Nat.lt_add_of_pos_left (List.length_pos_iff.mpr hlooked)
  rw [hsplit, Script.acts_append]
  exact (q.queue_eq hread).1

/-- In front of the end of the only row stand the readings `front`. -/
structure OneRow (front : List Reading) (stop : LineEnd) (back : List Reading) (s : Script) :
    Prop where
  sound : s.Sound
  ready : s.Ready
  lookahead : s.lookahead = []
  unread : s.unread = front ++ back
  closes : Closes stop back
  body : ∀ t ∈ Reading.tokens front, t.kind.endsLine = false

namespace OneRow

theorem ahead_eq (h : OneRow front stop back s) :
    s.ahead = Reading.tokens front ++ Reading.tokens back := by
  rw [Script.ahead, h.lookahead, h.unread, Reading.tokens_append, List.nil_append]

theorem exists_rest (h : OneRow front stop back s) :
    ∃ rest, s.ahead = Reading.tokens front ++ [stop.1] ++ rest := by
  obtain ⟨chunks, more, hback, -⟩ := h.closes.exists_cons
  exact ⟨Reading.tokens more, by rw [h.ahead_eq, hback, Reading.tokens_ok]; simp⟩

theorem isRow (h : OneRow front stop back s) : IsRow (Reading.tokens front ++ [stop.1]) :=
  ⟨_, stop.1, rfl, stop.2, h.body⟩

theorem exists_line_or_slip (h : OneRow front stop back s) :
    (∃ l : Line, l.height ≤ maxNesting ∧ l.tokens = Reading.tokens front ++ [stop.1]) ∨
      ∃ x : Slip, x.Fits ∧ x.tokens = Reading.tokens front ++ [stop.1] := by
  obtain ⟨rest, ha⟩ := h.exists_rest
  refine Grammar.exists_line_or_slip h.isRow fun t ht => h.sound.wellFormed t ?_
  rw [ha]
  exact List.mem_append_left _ ht

theorem legal_line (h : OneRow front stop back s) (scope : Scope) {l : Line}
    (hl : l.height ≤ maxNesting) (htokens : l.tokens = Reading.tokens front ++ [stop.1]) :
    AllLegal s.ahead (l.moves scope) := by
  obtain ⟨rest, ha⟩ := h.exists_rest
  rw [ha, ← htokens]
  exact (l.allLegal_moves scope hl).append_right rest

/-- Behind the row there is nothing more, and everything was read. -/
theorem exists_end (h : OneRow front stop back s) (ht : t.unread <:+ s.unread) {last : Token}
    (hlast : t.ahead = [last]) (hlook : stop.1.kind = .endOfInput → t.lookahead ≠ []) :
    Reading.diagnostics t.unread = [] := by
  refine Reading.diagnostics_of_suffix (h.unread ▸ ht) h.closes.diagnostics ?_
  have hlength := t.length_ahead_eq
  rw [hlast, List.length_singleton] at hlength
  cases h.closes with
  | newLine hs hl =>
    show _ < 2
    omega
  | endOfInput hs =>
    have hpos := List.length_pos_iff.mpr (hlook hs)
    show _ < 1
    omega

/-- A line is run, and the run is complete. -/
theorem runs_line (h : OneRow front stop back s) (c : Bool) (standIn : Span → Number) (b : Bindings)
    {l : Line} (hl : l.height ≤ maxNesting)
    (htokens : l.tokens = Reading.tokens front ++ [stop.1]) :
    ∃ t, Runs c standIn b s (s.acts (l.moves ⟨b, standIn⟩)).queue true
      ((l.result ⟨b, standIn⟩).getD b) t := by
  obtain ⟨rest, ha⟩ := h.exists_rest
  rw [← htokens] at ha
  cases hresult : l.result ⟨b, standIn⟩ with
  | none => exact ⟨_, .last (.of_line c l hl ha h.sound.room hresult)⟩
  | some b' =>
    have hpass : Passes c standIn b s _ b' _ := .of_line c l hl ha h.sound.room hresult
    obtain ⟨hs, hr⟩ := hpass.ready h.sound h.ready
    obtain ⟨hbody, hstop⟩ := List.append_inj' (l.tokens_eq_body.symm.trans htokens) rfl
    have hstop := List.singleton_inj.mp hstop
    obtain ⟨last, hlast, hback⟩ := h.closes.exists_last
    have p := l.progress ⟨b, standIn⟩ hl ha h.sound.room
    have hahead : (s.acts (l.moves ⟨b, standIn⟩)).ahead = [last.1] := by
      refine p.ahead_eq ?_
      rw [h.ahead_eq, hback, l.taken_moves, l.takes_eq_body, hbody, Subtype.ext hstop,
        List.append_assoc]
    have hread := h.exists_end (p.unread_suffix h.sound.lexical) hahead fun hk =>
      l.lookahead_ne_nil ⟨b, standIn⟩ hl h.sound ha (hstop ▸ hk)
    obtain ⟨t, hend⟩ := Ends.exists_of_end c standIn b' hlast hs hr hahead hread
    have hruns := Runs.pass hpass (.last hend)
    rw [List.append_nil] at hruns
    exact ⟨t, hruns⟩

/-- A slip ends the run, or is skipped. Then all that is left to be read of the row is put out. -/
theorem runs_slip (h : OneRow front stop back s) (c : Bool) (standIn : Span → Number) (b : Bindings)
    {x : Slip} (hx : x.Fits)
    (htokens : x.tokens = Reading.tokens front ++ [stop.1]) :
    ∃ t, Runs c standIn b s ((s.acts (x.moves ⟨b, standIn⟩)).queue ++ .diagnostic x.diagnostic ::
      if c then (Reading.diagnostics (s.acts (x.moves ⟨b, standIn⟩)).unread).map .diagnostic else [])
      c b t := by
  obtain ⟨rest, ha⟩ := h.exists_rest
  rw [← htokens] at ha
  cases c with
  | false => exact ⟨_, .last (.of_slip x hx ha h.sound.room)⟩
  | true =>
    obtain ⟨body, stop', he, hstop', hbody⟩ :=
      (x.tokens_eq ▸ htokens ▸ h.isRow).of_append (List.cons_ne_nil x.token x.after)
    obtain ⟨hfront, hstop⟩ : x.before ++ body = Reading.tokens front ∧ [stop'] = [stop.1] := by
      refine List.append_inj' (Eq.trans ?_ htokens) rfl
      rw [x.tokens_eq, he, List.append_assoc]
    obtain rfl := List.singleton_inj.mp hstop
    have hpass : Passes true standIn b s _ b _ :=
      .of_slip x hx ha h.sound.room h.ready.finished stop he hbody
    obtain ⟨hs, hr⟩ := hpass.ready h.sound h.ready
    obtain ⟨last, hlast, hback⟩ := h.closes.exists_last
    have p := x.progress ⟨b, standIn⟩ hx ha h.sound.room
    have q := x.progress_skip ⟨b, standIn⟩ hx ha h.sound.room stop he hbody
    have hahead : (s.skipped ⟨b, standIn⟩ x body stop).ahead = [last.1] := by
      refine q.ahead_eq ?_
      have hfailed : ((s.acts (x.moves ⟨b, standIn⟩)).failed x.diagnostic).ahead =
          body ++ Reading.tokens back := by
        refine p.ahead_eq ?_
        rw [h.ahead_eq, ← hfront, x.taken_moves, List.append_assoc]
      rw [hfailed, hback, Feed.taken_skipMoves, List.append_assoc]
    have hlook : stop.1.kind = .endOfInput → (s.skipped ⟨b, standIn⟩ x body stop).lookahead ≠ [] :=
      fun hk => Script.resumed_lookahead_ne_nil ((h.sound.progress p).failed x.diagnostic) q.legal hk
    -- behind the row there is only the end of the input, and all was read
    have hread := h.exists_end (hpass.unread_suffix h.sound h.ready) hahead hlook
    obtain ⟨read, hunread, hqueue, -⟩ := x.exists_queue_skipped ⟨b, standIn⟩ hx h.sound ha he hbody
    have hleft : Reading.diagnostics (s.acts (x.moves ⟨b, standIn⟩)).unread =
        Reading.diagnostics read := by
      rw [hunread, Reading.diagnostics_append]
      exact (congrArg _ hread).trans (List.append_nil _)
    obtain ⟨t, hend⟩ := Ends.exists_of_end true standIn b hlast hs hr hahead hread
    have hruns := Runs.pass hpass (.last hend)
    rw [List.append_nil, hqueue, ← hleft] at hruns
    exact ⟨t, hruns⟩

end OneRow

end LineCalc
