import LineCalc.Proofs.Grammar.Spots
import LineCalc.Proofs.Transcript.Totals

/-!
# A transcript, line by line

What a run puts out falls apart into blocks, one for each line of the text, in their order. In front
of a block stand the notices of the line, and behind them comes the verdict on it: a value, or what is
wrong. A run that keeps going may put out what else it reads on a line that failed.
-/

namespace LineCalc

open Grammar Move

variable {names : NameGrammar} {source : String} {standIn : Span → Number} {b b' : Bindings}
variable {s t : Script} {c c' : Bool} {os os' : List Output} {k : Nat}

/-! ### Blocks -/

/-- How the outputs of a line end: with nothing, with a value, or with what is wrong. Behind a fatal
diagnostic a run that keeps going puts out what else it reads. -/
inductive Verdict (keepGoing : Bool) : List Output → Prop where
  | nothing : Verdict keepGoing []
  | value (n : Number) : Verdict keepGoing [.value n]
  | arithmetic (d : Diagnostic) (hd : d.isArithmetic = true) : Verdict keepGoing [.diagnostic d]
  | fatal (d : Diagnostic) (hd : d.isFatal = true) (more : List Output)
      (hmore : ∀ o ∈ more, o.isLexical = true) (hk : more ≠ [] → keepGoing = true) :
      Verdict keepGoing (.diagnostic d :: more)

namespace Diagnostic

variable {d : Diagnostic}

theorem isLexical_of_isArithmetic (h : d.isArithmetic = true) : d.isLexical = false := by
  obtain ⟨problem, span⟩ := d
  cases problem <;> first | rfl | cases h

theorem isUndefined_of_isArithmetic (h : d.isArithmetic = true) : d.isUndefined = false := by
  obtain ⟨problem, span⟩ := d
  cases problem <;> first | rfl | cases h

theorem isUndefined_of_isFatal (h : d.isFatal = true) : d.isUndefined = false := by
  obtain ⟨problem, span⟩ := d
  cases problem <;> first | rfl | cases h

end Diagnostic

/-- The first diagnostic starts to the left of the second one. -/
def Diagnostic.LeftOf (d d' : Diagnostic) : Prop := d.span.start.column < d'.span.start.column

/-- What is put out for the line `k`. -/
structure Block (keepGoing : Bool) (k : Nat) (os : List Output) : Prop where
  verdict : ∃ notices last, os = notices ++ last ∧ (∀ o ∈ notices, o.isNotice = true) ∧
    Verdict keepGoing last
  line : ∀ d, .diagnostic d ∈ os → d.span.start.line = k
  lexical : ((os.filterMap Output.diagnostic?).filter Diagnostic.isLexical).Pairwise Diagnostic.LeftOf
  undefined :
    ((os.filterMap Output.diagnostic?).filter Diagnostic.isUndefined).Pairwise Diagnostic.LeftOf

theorem Block.nil (c : Bool) (k : Nat) : Block c k [] where
  verdict := ⟨[], [], rfl, by simp, .nothing⟩
  line := by simp
  lexical := .nil
  undefined := .nil

/-! ### What stands on a line -/

/-- The readings all start on the line `k`, further and further to the right. -/
structure Along (k : Nat) (line : List Reading) : Prop where
  level : ∀ r ∈ line, r.span.start.line = k
  columns : line.Pairwise fun r r' => r.span.start.column < r'.span.start.column

namespace Along

variable {line read : List Reading}

theorem of_prefix (h : Along k line) (hp : read <+: line) : Along k read :=
  ⟨fun r hr => h.level r (hp.subset hr), h.columns.sublist hp.sublist⟩

theorem line_of_mem_tokens (h : Along k line) {t : Token} (ht : t ∈ Reading.tokens line) :
    t.span.start.line = k := by
  obtain ⟨r, hr, hi⟩ := Reading.mem_tokens.mp ht
  rw [← h.level r hr, Reading.span, hi]

theorem line_of_mem_diagnostics (h : Along k line) {d : Diagnostic}
    (hd : d ∈ Reading.diagnostics line) : d.span.start.line = k := by
  obtain ⟨r, hr, hi⟩ := Reading.mem_diagnostics.mp hd
  rw [← h.level r hr, Reading.span, hi]

theorem pairwise_diagnostics (h : Along k line) :
    (Reading.diagnostics line).Pairwise Diagnostic.LeftOf := by
  rw [Reading.diagnostics, List.pairwise_filterMap]
  refine h.columns.imp fun {r r'} hlt d hd d' hd' => ?_
  rw [Reading.span_of_diagnostic? hd, Reading.span_of_diagnostic? hd'] at hlt
  exact hlt

theorem pairwise_tokens (h : Along k line) : ((Reading.tokens line).map (·.span)).Pairwise
    fun p p' => p.start.column < p'.start.column := by
  rw [List.pairwise_map, Reading.tokens, List.pairwise_filterMap]
  refine h.columns.imp fun {r r'} hlt t ht t' ht' => ?_
  rw [Reading.span_of_token? ht, Reading.span_of_token? ht'] at hlt
  exact hlt

end Along

namespace InRow

variable {front line more : List Reading} {before row : List Token}

/-- In front of the last reading of a row no line ends. -/
theorem newLines_of_line_eq {pre post : List Reading} {r : Reading}
    (h : InRow (Reading.ofText names source) front line more before row s) (hl : s.lookahead = [])
    (he : line = pre ++ r :: post) : newLines (Reading.tokens pre) = 0 := by
  obtain ⟨done, hdone⟩ := h.suffix
  obtain ⟨init, last, tok, hinit, hlast⟩ := h.last
  have hne : Reading.tokens (r :: post) ≠ [] := by
    intro hnil
    have hwhole : (done ++ pre) ++ r :: post = init ++ [last] := by
      rw [← hinit, hdone, he, List.append_assoc]
    cases Reading.eq_nil_of_tokens_eq_nil hwhole hlast hnil
  obtain ⟨u, rest, hu⟩ := List.exists_cons_of_ne_nil hne
  have hrow := h.isRow
  rw [← h.ahead, hl, List.nil_append, he, Reading.tokens_append, hu] at hrow
  exact hrow.newLines_body

/-- What is read of a row stands on one line. -/
theorem along (h : InRow (Reading.ofText names source) front line more before row s)
    (hl : s.lookahead = []) : Along (1 + newLines before) line := by
  obtain ⟨done, hdone⟩ := h.suffix
  have hbefore : Reading.tokens done = before := by
    have htokens := h.tokens
    rw [hdone, Reading.tokens_append, ← h.ahead, hl, List.nil_append] at htokens
    exact List.append_cancel_right htokens
  have hwhole : Reading.ofText names source = done ++ (line ++ more) := by
    rw [h.whole, hdone, List.append_assoc]
  constructor
  · intro r hr
    obtain ⟨pre, post, he⟩ := List.append_of_mem hr
    have hat : Reading.ofText names source = (done ++ pre) ++ r :: (post ++ more) := by
      rw [hwhole, he]
      simp
    rw [Reading.line_start hat, Reading.tokens_append, newLines_append, hbefore,
      h.newLines_of_line_eq hl he]
    rfl
  · -- every suffix of the line has its columns in order
    suffices hsuffix : ∀ suffix pre, line = pre ++ suffix →
        suffix.Pairwise fun r r' => r.span.start.column < r'.span.start.column from
      hsuffix line [] rfl
    intro suffix
    induction suffix with
    | nil => exact fun _ _ => .nil
    | cons r suffix ih =>
      intro pre he
      refine List.pairwise_cons.mpr ⟨fun r' hr' => ?_, ih (pre ++ [r]) (by rw [he]; simp)⟩
      obtain ⟨mid, post, rfl⟩ := List.append_of_mem hr'
      have hat : Reading.ofText names source =
          (done ++ pre) ++ r :: (mid ++ r' :: (post ++ more)) := by
        rw [hwhole, he]
        simp
      have hmid : line = (pre ++ r :: mid) ++ r' :: post := by
        rw [he]
        simp
      have hlevel := h.newLines_of_line_eq hl hmid
      rw [Reading.tokens_append, newLines_append] at hlevel
      exact Reading.column_lt hat (Nat.eq_zero_of_add_eq_zero_left hlevel)

end InRow

/-! ### The block of a row -/

/-- A name that is reported is no lexical diagnostic. -/
theorem filter_isUndefined_sublist (os : List Output) :
    ((os.filterMap Output.diagnostic?).filter Diagnostic.isUndefined).Sublist
      ((os.filter (!·.isLexical)).filterMap Output.diagnostic?) := by
  induction os with
  | nil => exact List.nil_sublist _
  | cons o os ih =>
    cases o with
    | value v => exact ih
    | diagnostic d =>
      by_cases hl : d.isLexical = true
      · have hu := Diagnostic.isUndefined_of_isLexical hl
        simpa [Output.diagnostic?, Output.isLexical, hl, hu] using ih
      · by_cases hu : d.isUndefined = true
        · simpa [Output.diagnostic?, Output.isLexical, hl, hu] using ih
        · simpa [Output.diagnostic?, Output.isLexical, hl, hu] using ih.cons d

/-- The block of a row: notices, of which those that are not lexical stand where the tokens do, and a
verdict. -/
theorem Block.of_row {line read : List Reading} {notices reports last : List Output}
    (hline : Along k line) (hread : read <+: line)
    (hlexical : (notices ++ last).filter Output.isLexical = (Reading.diagnostics read).map .diagnostic)
    (hnotices : ∀ o ∈ notices, o.isNotice = true)
    (hreports : notices.filter (!·.isLexical) = reports)
    (hspots : (Output.spots reports).Sublist ((Reading.tokens line).map (·.span)))
    (hverdict : Verdict c last)
    (hlast : ∀ d, .diagnostic d ∈ last → d.isLexical = true ∨
      d.isUndefined = false ∧ ∃ t ∈ Reading.tokens line, d.span.start = t.span.start) :
    Block c k (notices ++ last) := by
  have hdiagnostics : ((notices ++ last).filterMap Output.diagnostic?).filter Diagnostic.isLexical =
      Reading.diagnostics read := by
    rw [filter_diagnostics, hlexical, List.filterMap_map]
    exact List.filterMap_some
  refine ⟨⟨notices, last, rfl, hnotices, hverdict⟩, fun d hd => ?_, ?_, ?_⟩
  · -- a diagnostic was read on the line, or starts where one of its tokens does
    by_cases hl : d.isLexical = true
    · have hmem : d ∈ Reading.diagnostics read := by
        rw [← hdiagnostics, List.mem_filter, List.mem_filterMap]
        exact ⟨⟨.diagnostic d, hd, rfl⟩, hl⟩
      exact (hline.of_prefix hread).line_of_mem_diagnostics hmem
    · rcases List.mem_append.mp hd with hd | hd
      · have hmem : d.span ∈ Output.spots reports := by
          rw [← hreports, Output.spots, List.mem_map]
          refine ⟨d, List.mem_filterMap.mpr ⟨.diagnostic d, ?_, rfl⟩, rfl⟩
          rw [List.mem_filter]
          exact ⟨hd, by simpa [Output.isLexical] using hl⟩
        obtain ⟨t, ht, hspan⟩ := List.mem_map.mp (hspots.subset hmem)
        rw [← hspan]
        exact hline.line_of_mem_tokens ht
      · obtain ⟨-, t, ht, hstart⟩ := (hlast d hd).resolve_left hl
        rw [hstart]
        exact hline.line_of_mem_tokens ht
  · rw [hdiagnostics]
    exact (hline.of_prefix hread).pairwise_diagnostics
  · have hnone : (last.filterMap Output.diagnostic?).filter Diagnostic.isUndefined = [] := by
      rw [List.filter_eq_nil_iff]
      intro d hd hu
      obtain ⟨o, ho, hod⟩ := List.mem_filterMap.mp hd
      cases o with
      | value v => cases hod
      | diagnostic d' =>
        obtain rfl := Option.some.inj hod
        rcases hlast d' ho with hl | ⟨hn, -⟩
        · rw [Diagnostic.isUndefined_of_isLexical hl] at hu
          cases hu
        · rw [hn] at hu
          cases hu
    rw [List.filterMap_append, List.filter_append, hnone, List.append_nil]
    have hsublist := filter_isUndefined_sublist notices
    rw [hreports] at hsublist
    have hcolumns := hline.pairwise_tokens.sublist hspots
    rw [Output.spots, List.pairwise_map] at hcolumns
    exact hcolumns.sublist hsublist

/-- The verdict on a line is a value, a diagnostic of an operation, or nothing. -/
theorem Grammar.Line.verdict_outputs (scope : Scope) (l : Line) (c : Bool) :
    Verdict c (outputs (l.verdict scope)) := by
  cases l with
  | blank stop => exact .nothing
  | full k stop =>
    rw [Line.verdict, Content.verdict]
    cases hf : (k.faults scope).head? with
    | some d => exact .arithmetic d (k.isArithmetic_of_mem_faults scope d (List.mem_of_head? hf))
    | none =>
      cases k.deed scope with
      | nothing => exact .nothing
      | print value => exact .value value
      | store name value => exact .nothing

section

variable {front line more : List Reading} {before body : List Token} {m : List Move}
variable {l : Line} {x : Slip} {stop : LineEnd}

/-- Moves that stay inside a row put out what they read of it, and what they report. -/
theorem InRow.exists_read {rs : List Reading} {row : List Token}
    (h : InRow rs front line more before row s) (hs : s.Lexical) (hm : AllLegal row m) :
    ∃ read rest new, line = read ++ rest ∧ (s.acts m).unread = rest ++ more ∧
      (s.acts m).queue = s.queue ++ new ∧
      new.filter Output.isLexical = (Reading.diagnostics read).map .diagnostic ∧
      new.filter (!·.isLexical) = outputs m := by
  obtain ⟨he, p⟩ := h.acts_eq hm
  obtain ⟨read, new, hu, hq, hl, hn⟩ := p.queue (h.lexical_line hs)
  refine ⟨read, _, new, hu, ?_, ?_, hl, hn⟩
  · rw [he]
    rfl
  · rw [he]
    exact hq

theorem Grammar.Line.block (scope : Scope) (c : Bool)
    (h : InRow (Reading.ofText names source) front line more before l.tokens s)
    (hlook : s.lookahead = []) (hl : l.height ≤ maxNesting) (hs : s.Sound) (hr : s.Ready) :
    Block c (1 + newLines before) (s.acts (l.moves scope)).queue := by
  have hlegal := l.allLegal_moves scope hl
  rw [l.moves_eq, allLegal_append] at hlegal
  obtain ⟨p, hqueue⟩ := l.progress_reading scope hl h.ahead_eq hs.room
  obtain ⟨read, rest, new, hline, -, hq, hlexical, hreports⟩ := h.exists_read hs.lexical hlegal.1
  obtain ⟨new', hq', hnotices⟩ := p.exists_queue hs.lexical (l.quiet_reading scope)
  obtain rfl : new' = new := List.append_cancel_left (hq'.symm.trans hq)
  have htokens := h.tokens_line hlook
  rw [hr.queue, List.nil_append] at hq
  rw [hqueue, hq]
  refine Block.of_row (h.along hlook) ⟨rest, hline.symm⟩ ?_ hnotices hreports ?_
    (l.verdict_outputs scope c) ?_
  · -- nothing in the verdict was read
    have hnone : (outputs (l.verdict scope)).filter Output.isLexical = [] := by
      rw [List.filter_eq_nil_iff]
      intro o ho hlex
      cases o with
      | value v => cases hlex
      | diagnostic d =>
        have hnot := Diagnostic.isLexical_of_isArithmetic (l.isArithmetic_of_mem_verdict scope ho)
        rw [show d.isLexical = true from hlex] at hnot
        cases hnot
    rw [List.filter_append, hlexical, hnone, List.append_nil]
  · rw [htokens]
    exact l.spots_sublist scope
  · intro d hd
    right
    refine ⟨Diagnostic.isUndefined_of_isArithmetic (l.isArithmetic_of_mem_verdict scope hd), ?_⟩
    obtain ⟨k, stop, rfl, hf⟩ := l.exists_of_mem_verdict scope hd
    obtain ⟨t, ht, hstart⟩ := k.exists_start_of_mem_faults scope hf
    rw [htokens]
    exact ⟨t, List.mem_append_left _ ht, hstart⟩

/-- The block of a slip, when `os` is what is put out behind its fatal diagnostic. -/
theorem Grammar.Slip.block (scope : Scope)
    (h : InRow (Reading.ofText names source) front line more before x.tokens s)
    (hlook : s.lookahead = []) (hx : x.Fits) (hs : s.Sound) (hr : s.Ready)
    (hos : ∀ o ∈ os, o.isLexical = true) (hc : os ≠ [] → c = true) {skipped : List Reading}
    (hskipped : os = (Reading.diagnostics skipped).map .diagnostic)
    (hrest : ∀ rest, (s.acts (x.moves scope)).unread = rest ++ more → skipped <+: rest) :
    Block c (1 + newLines before)
      ((s.acts (x.moves scope)).queue ++ .diagnostic x.diagnostic :: os) := by
  obtain ⟨read, rest, new, hline, hu, hq, hlexical, hreports⟩ :=
    h.exists_read hs.lexical (x.allLegal_moves scope hx)
  obtain ⟨rest', hrest'⟩ := hrest rest hu
  have hnotices := x.notices scope hx hs hr h.ahead_eq
  have htokens := h.tokens_line hlook
  rw [hr.queue, List.nil_append] at hq
  rw [hq] at hnotices ⊢
  have hlex := Diagnostic.isLexical_of_isFatal hx.isFatal
  have hread : read ++ skipped <+: line := ⟨rest', by rw [hline, ← hrest', List.append_assoc]⟩
  refine Block.of_row (h.along hlook) hread ?_ hnotices hreports ?_
    (.fatal x.diagnostic hx.isFatal os hos hc) ?_
  · rw [List.filter_append, hlexical, List.filter_cons_of_neg (by simp [Output.isLexical, hlex]),
      List.filter_eq_self.mpr hos, hskipped, Reading.diagnostics_append, List.map_append]
  · rw [htokens, x.tokens_eq, List.map_append]
    exact (x.spots_sublist scope).trans (List.sublist_append_left _ _)
  · intro d hd
    rcases List.mem_cons.mp hd with hd | hd
    · obtain rfl := Output.diagnostic.inj hd
      right
      refine ⟨Diagnostic.isUndefined_of_isFatal hx.isFatal, x.token, ?_, by rw [hx.span_diagnostic]⟩
      rw [htokens, x.tokens_eq]
      simp
    · exact .inl (hos _ hd)

/-! ### From line to line -/

/-- A script is about to read the line `k` of a text. -/
def Script.AtLine (names : NameGrammar) (source : String) (k : Nat) (s : Script) : Prop :=
  s.lookahead = [] ∧ ∃ done, Reading.ofText names source = done ++ s.unread ∧
    k = 1 + newLines (Reading.tokens done)

/-- A script has read the last line of a text. -/
def Script.Through (s : Script) : Prop := s.AtEnd ∧ s.unread = []

theorem Script.AtLine.exists_inRow (h : s.AtLine names source k) (hs : s.Sound) :
    ∃ front line more before row, InRow (Reading.ofText names source) front line more before row s ∧
      k = 1 + newLines before := by
  obtain ⟨hlook, done, hdone, hk⟩ := h
  obtain ⟨line, more, row, hrow⟩ := InRow.exists_of_lookahead_eq_nil hs hlook done
  rw [← hdone] at hrow
  exact ⟨_, _, _, _, _, hrow, hk⟩

/-- Behind a row stands the next line, unless the text ends here. -/
theorem InRow.nextLine (h : InRow (Reading.ofText names source) front line more before
      (body ++ [stop.1]) s) (hs : s.Sound) (hm : AllLegal (body ++ [stop.1]) m)
    (ht : taken m = body ++ taken stop.moves)
    (hlook : stop.1.kind = .endOfInput → (s.acts m).lookahead ≠ []) :
    (s.acts m).AtLine names source (1 + newLines before + 1) ∨
      (s.acts m).Through ∧ newLines before = lineBreaks source.toList := by
  have hbody := h.isRow.newLines_body
  rcases h.past hs hm ht with ⟨hk, hl, hu, -⟩ | ⟨hk, line', hr⟩
  · left
    refine ⟨hl, front, by rw [hu, h.whole], ?_⟩
    rw [h.tokens, newLines_append, newLines_append, hbody, newLines_singleton, if_pos hk]
    omega
  · right
    have hmore := h.more_eq_nil hk
    have hunread := hr.unread
    rw [hr.line_eq_nil (hlook hk), hmore] at hunread
    refine ⟨⟨hr.atEnd hk, hunread⟩, ?_⟩
    have hlines := h.lineBreaks_front
    have hwhole := h.whole
    rw [hmore, List.append_nil] at hwhole
    rw [← hwhole, show Reading.text (Reading.ofText names source) = source.toList from
      Reading.flatMap_chars_ofText names source, newLines_singleton, if_neg (by simp [hk])] at hlines
    exact hlines.symm

/-- When a line was evaluated that ends the text, the end was looked at. -/
theorem Grammar.Line.lookahead_ne_nil (scope : Scope) (hl : l.height ≤ maxNesting) (hs : s.Sound)
    {rest : List Token} (ha : s.ahead = l.tokens ++ rest) (hk : l.stop.1.kind = .endOfInput) :
    (s.acts (l.moves scope)).lookahead ≠ [] := by
  obtain ⟨init, hinit⟩ : ∃ init, l.reading scope = init ++ [.look 0] := by
    have hstop : LineEnd.moves l.stop = [.look 0] := LineEnd.moves_of_endOfInput hk
    cases l with
    | blank stop =>
      have hstop : LineEnd.moves stop = [.look 0] := hstop
      exact ⟨[.clear], by simp [reading, hstop]⟩
    | full k stop =>
      have hstop : LineEnd.moves stop = [.look 0] := hstop
      exact ⟨.clear :: .look 0 :: .count :: k.moves scope, by simp [reading, hstop]⟩
  have hlegal := (l.progress_reading scope hl ha hs.room).1.legal
  rw [hinit, allLegal_append] at hlegal
  have hverdict : ∀ s : Script, (s.acts (l.verdict scope)).lookahead = s.lookahead := by
    intro s
    cases l with
    | blank stop => rfl
    | full k stop =>
      rw [verdict, Content.verdict]
      split <;> rfl
  rw [l.moves_eq, Script.acts_append, hverdict, hinit, Script.acts_append]
  exact Script.act_look_lookahead_ne_nil
    (hs.progress (Script.progress_acts hlegal.1)).length_ahead_pos

end

open Script

/-- A row that is passed has a block, and behind it stands the next line. -/
theorem Passes.block (h : Passes c standIn b s os b' t) (hs : s.Sound) (hr : s.Ready)
    (hk : s.AtLine names source k) : Block c k os ∧
      (t.AtLine names source (k + 1) ∨ t.Through ∧ k = 1 + lineBreaks source.toList) := by
  have hlook := hk.1
  obtain ⟨front, line, more, before, row, hrow, rfl⟩ := hk.exists_inRow hs
  rcases h.row_cases hs hr.finished hrow.ahead_eq hrow.isRow with
    ⟨l, hl, rfl, -, rfl, rfl⟩ | ⟨rfl, -, x, body, stop, hx, rfl, he, hb, rfl, rfl⟩
  · refine ⟨l.block ⟨b, standIn⟩ c hrow hlook hl hs hr, ?_⟩
    have hend := l.lookahead_ne_nil ⟨b, standIn⟩ hl hs hrow.ahead_eq
    have hlegal := l.allLegal_moves ⟨b, standIn⟩ hl
    rw [l.tokens_eq_body] at hrow hlegal
    rcases hrow.nextLine hs hlegal (by rw [l.taken_moves, l.takes_eq_body]) hend with
      hnext | ⟨hthrough, hlines⟩
    · exact .inl hnext
    · exact .inr ⟨hthrough, by rw [hlines]⟩
  · obtain ⟨line', hrow'⟩ := hrow.acts_slip ⟨b, standIn⟩ hs hx
    have hlegal := allLegal_skipMoves stop hb
    have hsound := (hs.progress (x.progress ⟨b, standIn⟩ hx hrow.ahead_eq hs.room)).failed x.diagnostic
    rw [he] at hrow'
    have hfailed : InRow (Reading.ofText names source) front line' more (before ++ x.before)
        (body ++ [stop.1]) ((s.acts (x.moves ⟨b, standIn⟩)).failed x.diagnostic) :=
      hrow'.congr rfl rfl
    constructor
    · obtain ⟨skipped, hu, hq, hlexical⟩ :=
        x.exists_queue_skipped ⟨b, standIn⟩ hx hs hrow.ahead_eq he hb
      refine x.block ⟨b, standIn⟩ hrow hlook hx hs hr hlexical (fun _ => rfl) hq fun rest hrest => ?_
      obtain ⟨read, rest', new, -, hunread, -⟩ := hfailed.exists_read hsound.lexical hlegal
      have hunread : (s.skipped ⟨b, standIn⟩ x body stop).unread = rest' ++ more := hunread
      rw [hrest, hunread, ← List.append_assoc] at hu
      exact ⟨rest', (List.append_cancel_right hu).symm⟩
    · -- a slip stops on the line of its row, and skipping ends this line
      have hbefore : newLines x.before = 0 := Slip.newLines_before hrow.isRow
      have hahead : AllLegal ((s.acts (x.moves ⟨b, standIn⟩)).failed x.diagnostic).ahead
          (Feed.skipMoves body stop) := by
        rw [hfailed.ahead_eq]
        exact hlegal.append_right _
      have hnext := hfailed.nextLine hsound hlegal (Feed.taken_skipMoves body stop)
        fun hk => resumed_lookahead_ne_nil hsound hahead hk
      rw [newLines_append, hbefore] at hnext
      rcases hnext with hnext | ⟨hthrough, hlines⟩
      · exact .inl hnext
      · exact .inr ⟨hthrough, by rw [← hlines]; rfl⟩

theorem Ends.block (h : Ends c standIn b s os c' t) (hs : s.Sound) (hr : s.Ready)
    (hk : s.AtLine names source k) : Block c k os := by
  have hlook := hk.1
  obtain ⟨front, line, more, before, row, hrow, rfl⟩ := hk.exists_inRow hs
  rcases h.row_cases hs hrow.ahead_eq hrow.isRow with
    ⟨-, l, hl, rfl, -, rfl, -⟩ | ⟨-, -, x, hx, rfl, rfl, -⟩
  · exact l.block ⟨b, standIn⟩ c hrow hlook hl hs hr
  · have hnil : ([] : List Output) = (Reading.diagnostics []).map .diagnostic := rfl
    exact x.block ⟨b, standIn⟩ hrow hlook hx hs hr (by simp) (by simp) hnil
      fun rest _ => List.nil_prefix

/-! ### Runs -/

/-- Where all was read, nothing more is put out. -/
theorem Runs.eq_nil_of_through (h : Runs c standIn b s os c' b' t) (hs : s.Sound) (hr : s.Ready)
    (hend : s.Through) : os = [] := by
  obtain ⟨u, hu⟩ := statement_atEnd hend.1 hs ⟨b, standIn⟩
  cases h with
  | pass h rest =>
    cases h with
    | line h => cases hu.symm.trans (Work.statement_more.mp h)
    | skip hk h hv => cases hu.symm.trans (Work.statement_error.mp h)
  | last h =>
    obtain ⟨row, rest, ha, hrow⟩ := hs.exists_row
    rcases h.row_cases hs ha hrow with ⟨-, l, hl, rfl, hresult, rfl, -⟩ | ⟨-, -, x, hx, rfl, -⟩
    · have p := l.progress ⟨b, standIn⟩ hl ha hs.room
      have hout : outputs (l.moves ⟨b, standIn⟩) = [] := by
        rw [Line.moves_of_result hresult]
        rfl
      obtain ⟨read, hread, hq⟩ := p.exists_read hs.lexical hout
      rw [hend.2] at hread
      rw [hq, hr.queue, (List.append_eq_nil_iff.mp hread.symm).1]
      rfl
    · obtain ⟨stop, hstop⟩ := hend.1
      have hlen := congrArg List.length (hstop.symm.trans ha)
      have htwo := hx.two_le_length
      rw [List.length_append, List.length_singleton] at hlen
      omega

/-- The outputs of a run fall apart into a block for each line. -/
theorem Runs.exists_blocks (h : Runs c standIn b s os c' b' t) (hs : s.Sound) (hr : s.Ready)
    (hk : s.AtLine names source k) : ∃ blocks : List (List Output), blocks.flatten = os ∧
      k + blocks.length = lineBreaks source.toList + 2 ∧
      ∀ i block, blocks[i]? = some block → Block c (k + i) block := by
  induction h generalizing k with
  | @last _ _ _ os _ h =>
    -- the lines behind the last one that was run have nothing to show
    have hle : k ≤ 1 + lineBreaks source.toList := by
      obtain ⟨front, line, more, before, row, hrow, hbefore⟩ := hk.exists_inRow hs
      exact (OnLine.le ⟨front, line, more, before, row, hrow, hbefore⟩).2
    refine ⟨os :: List.replicate (lineBreaks source.toList + 1 - k) [], ?_, ?_, fun i block hi => ?_⟩
    · simp
    · rw [List.length_cons, List.length_replicate]
      omega
    · cases i with
      | zero =>
        obtain rfl := Option.some.inj hi
        exact h.block hs hr hk
      | succ i =>
        rw [List.getElem?_cons_succ] at hi
        obtain rfl := List.eq_of_mem_replicate (List.mem_of_getElem? hi)
        exact .nil c _
  | @pass _ _ _ _ _ _ os os' _ h rest ih =>
    obtain ⟨hs₁, hr₁⟩ := h.ready hs hr
    obtain ⟨hblock, hnext⟩ := h.block hs hr hk
    rcases hnext with hnext | ⟨hthrough, hlines⟩
    · obtain ⟨blocks, hflatten, hlength, hblocks⟩ := ih hs₁ hr₁ hnext
      refine ⟨os :: blocks, by rw [List.flatten_cons, hflatten], ?_, fun i block hi => ?_⟩
      · rw [List.length_cons]
        omega
      · cases i with
        | zero =>
          obtain rfl := Option.some.inj hi
          exact hblock
        | succ i =>
          have hi := hblocks i block hi
          rwa [Nat.add_assoc, Nat.add_comm 1] at hi
    · obtain rfl := rest.eq_nil_of_through hs₁ hr₁ hthrough
      refine ⟨[os], by simp, ?_, fun i block hi => ?_⟩
      · rw [List.length_singleton]
        omega
      · cases i with
        | zero =>
          obtain rfl := Option.some.inj hi
          exact hblock
        | succ i => cases hi

/-- What a run puts out falls apart into blocks, one for each line of the text, in their order. -/
theorem Session.exists_blocks_run (session : Session) (source : String) :
    ∃ blocks : List (List Output), blocks.flatten = (session.run source).1.outputs ∧
      blocks.length = lineBreaks source.toList + 1 ∧
      ∀ i block, blocks[i]? = some block → Block session.config.keepGoing (i + 1) block := by
  obtain ⟨config, b⟩ := session
  obtain ⟨os, c, b', t, h, hrun⟩ := Session.exists_run_eq config b source
  have hstart : (Script.ofText config.names source).AtLine config.names source 1 :=
    ⟨rfl, [], rfl, rfl⟩
  obtain ⟨blocks, hflatten, hlength, hblocks⟩ := h.exists_blocks
    (Script.sound_ofText config.names source) (Script.ready_ofText config.names source) hstart
  refine ⟨blocks, by rw [hrun]; exact hflatten, by omega, fun i block hi => ?_⟩
  rw [Nat.add_comm]
  exact hblocks i block hi

end LineCalc
