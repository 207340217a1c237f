import LineCalc.Proofs.Evaluation.Storing
import LineCalc.Proofs.Requests.Standing

/-!
# One fatal diagnostic for each line

A run meets at most one fatal diagnostic on each line of its text, since it goes on behind the line.
The last line is no exception: when it was skipped, only the end of the input is left, which is no
reason to fail.
-/

namespace LineCalc

open Grammar Move

/-! ### Outputs -/

namespace Output

/-- The lines on which fatal diagnostics start. -/
def fatalLines (os : List Output) : List Nat :=
  ((os.filterMap diagnostic?).filter Diagnostic.isFatal).map (·.span.start.line)

/-- Is it a fatal diagnostic that is put out? -/
def isFatal : Output → Bool
  | .value _ => false
  | .diagnostic d => d.isFatal

variable {os os' : List Output} {d : Diagnostic}

@[simp] theorem fatalLines_nil : fatalLines [] = [] := rfl

@[simp] theorem fatalLines_append (os os' : List Output) :
    fatalLines (os ++ os') = fatalLines os ++ fatalLines os' := by
  simp [fatalLines]

theorem fatalLines_singleton (hd : d.isFatal = true) :
    fatalLines [.diagnostic d] = [d.span.start.line] := by
  simp [fatalLines, diagnostic?, hd]

theorem fatalLines_eq_nil (h : ∀ d, .diagnostic d ∈ os → d.isFatal = false) : fatalLines os = [] := by
  rw [fatalLines, List.map_eq_nil_iff, List.filter_eq_nil_iff]
  intro d hd
  obtain ⟨o, ho, hod⟩ := List.mem_filterMap.mp hd
  cases o with
  | value n => cases hod
  | diagnostic d' =>
    obtain rfl := Option.some.inj hod
    simp [h d' ho]

end Output

theorem Diagnostic.isFatal_of_isNotice {d : Diagnostic} (h : d.isNotice = true) :
    d.isFatal = false := by
  obtain ⟨problem, span⟩ := d
  cases problem <;> first | rfl | cases h

theorem Diagnostic.isLexical_of_isFatal {d : Diagnostic} (h : d.isFatal = true) :
    d.isLexical = false := by
  obtain ⟨problem, span⟩ := d
  cases problem <;> first | rfl | cases h

theorem Diagnostic.isFatal_of_isArithmetic {d : Diagnostic} (h : d.isArithmetic = true) :
    d.isFatal = false := by
  obtain ⟨problem, span⟩ := d
  cases problem <;> first | rfl | cases h

theorem Output.fatalLines_of_notices {os : List Output} (h : ∀ o ∈ os, o.isNotice = true) :
    fatalLines os = [] :=
  fatalLines_eq_nil fun _ hd => Diagnostic.isFatal_of_isNotice (h _ hd)

/-- The verdict on a line is never fatal. -/
theorem Grammar.Line.fatalLines_verdict (scope : Scope) (l : Line) :
    Output.fatalLines (outputs (l.verdict scope)) = [] := by
  cases l with
  | blank stop => rfl
  | full c stop =>
    rw [Line.verdict, Content.verdict]
    cases hf : (c.faults scope).head? with
    | none => cases c.deed scope <;> rfl
    | some d =>
      apply Output.fatalLines_eq_nil
      intro d' hd'
      obtain rfl : d' = d := by simpa using hd'
      exact Diagnostic.isFatal_of_isArithmetic
        (c.isArithmetic_of_mem_faults scope d' (List.mem_of_head? hf))

/-! ### Lines of a text -/

variable {names : NameGrammar} {source : String} {standIn : Span → Number} {b b' : Bindings}
variable {s t : Script} {c c' : Bool} {os : List Output} {k : Nat}

/-- A script stands on the line `k` of a text. -/
def Script.OnLine (names : NameGrammar) (source : String) (k : Nat) (s : Script) : Prop :=
  ∃ front line more before row,
    InRow (Reading.ofText names source) front line more before row s ∧ k = 1 + newLines before

namespace Script.OnLine

theorem congr (h : s.OnLine names source k) (hl : t.lookahead = s.lookahead)
    (hu : t.unread = s.unread) : t.OnLine names source k := by
  obtain ⟨front, line, more, before, row, hrow, hk⟩ := h
  exact ⟨front, line, more, before, row, hrow.congr hl hu, hk⟩

theorem ofText (names : NameGrammar) (source : String) :
    (Script.ofText names source).OnLine names source 1 := by
  obtain ⟨line, more, row, h⟩ :=
    InRow.exists_of_lookahead_eq_nil (sound_ofText names source) rfl []
  exact ⟨_, _, _, _, _, h, rfl⟩

/-- There are as many lines as there are line breaks, and one more. -/
theorem le (h : s.OnLine names source k) : 1 ≤ k ∧ k ≤ 1 + lineBreaks source.toList := by
  obtain ⟨front, line, more, before, row, hrow, rfl⟩ := h
  have hall : Reading.ofText names source = Reading.ofText names source ++ [] := by simp
  have hlines := Reading.lineBreaks_text hall
  rw [show Reading.text (Reading.ofText names source) = source.toList from
    Reading.flatMap_chars_ofText names source] at hlines
  have hfront := congrArg (fun rs => newLines (Reading.tokens rs)) hrow.whole
  simp only [Reading.tokens_append, hrow.tokens, newLines_append] at hfront
  omega

end Script.OnLine

open Script

/-- Behind a row stands the next line, unless the text ends here. -/
theorem onLine_of_past {front more : List Reading} {before body : List Token} {stop : LineEnd}
    (hr : IsRow (body ++ [stop.1]))
    (h : (stop.1.kind = .newLine ∧ ∃ line' more' row', InRow (Reading.ofText names source)
        (front ++ line') line' more' (before ++ (body ++ [stop.1])) row' s) ∨
      stop.1.kind = .endOfInput ∧ ∃ line', InRow (Reading.ofText names source) front line' more
        (before ++ body) [stop.1] s) :
    s.OnLine names source (1 + newLines before + 1) ∨
      s.OnLine names source (1 + newLines before) ∧ s.AtEnd := by
  have hbody := hr.newLines_body
  rcases h with ⟨hk, line', more', row', hrow⟩ | ⟨hk, line', hrow⟩
  · left
    refine ⟨_, _, _, _, _, hrow, ?_⟩
    rw [newLines_append, newLines_append, newLines_singleton, if_pos hk, hbody]
    omega
  · right
    refine ⟨⟨_, _, _, _, _, hrow, ?_⟩, hrow.atEnd hk⟩
    rw [newLines_append, hbody]
    rfl

/-! ### Runs -/

/-- What becomes of a statement on the line `k`: a line is passed, or a slip is met. -/
theorem statement_onLine (h : s.OnLine names source k) (hs : s.Sound) (scope : Scope)
    (hq : s.queue = []) :
    (∃ r t, Eval.statement scope s = .ok r t ∧ Output.fatalLines t.queue = [] ∧
      (t.OnLine names source (k + 1) ∨ t.OnLine names source k ∧ t.AtEnd)) ∨
    ∃ x t, Eval.statement scope s = .error (.fatal x) t ∧ Output.fatalLines t.queue = [] ∧
      x.isFatal = true ∧ x.span.start.line = k ∧ t.OnLine names source k := by
  obtain ⟨front, line, more, before, row, hrow, rfl⟩ := h
  -- a line puts out nothing fatal, and a slip is fatal on the line of its row
  rcases hs.statement_cases scope hrow.ahead_eq hrow.isRow with
    ⟨l, hl, rfl, t, ht, p, -⟩ | ⟨x, hx, rfl, t, ht, p⟩
  · left
    obtain ⟨t', new, ht', hqueue, hnew, -⟩ := Eval.statement_line hs scope l hrow.ahead_eq hl
    obtain ⟨-, rfl⟩ := EStateM.Result.ok.inj (ht.symm.trans ht')
    refine ⟨_, t, ht, ?_, ?_⟩
    · rw [hqueue, hq, List.nil_append, Output.fatalLines_append, Output.fatalLines_of_notices hnew,
        l.fatalLines_verdict]
      rfl
    · obtain rfl := p.acts
      have hisRow := hrow.isRow
      have hpast := hrow.acts_line scope hs hl
      rw [l.tokens_eq_body] at hisRow hpast
      exact onLine_of_past hisRow hpast
  · right
    obtain ⟨t', new, ht', hqueue, hnew, -⟩ := Eval.statement_slip hs scope x hrow.ahead_eq hx
    obtain ⟨-, rfl⟩ := EStateM.Result.error.inj (ht.symm.trans ht')
    obtain rfl := p.acts
    obtain ⟨line', hr⟩ := hrow.acts_slip scope hs hx
    have hk : 1 + newLines (before ++ x.before) = 1 + newLines before := by
      rw [hrow.newLines_slip]
    refine ⟨x.diagnostic, _, ht, ?_, hx.isFatal, ?_, _, _, _, _, _, hr, hk.symm⟩
    · rw [hqueue, hq, List.nil_append, Output.fatalLines_of_notices hnew]
    · rw [hx.span_diagnostic, ← hk]
      exact hr.line_eq

/-- Recovering from a fatal diagnostic on the line `k` goes to the next line, unless the text ends
there. -/
theorem recover_onLine {u : Script} {x : Diagnostic} (h : t.OnLine names source k) (hs : t.Sound)
    (hn : t.finished = false) (hu : Feed.recover (t.failed x) = .ok true u) :
    Output.fatalLines u.queue = [] ∧
      (u.OnLine names source (k + 1) ∨ u.OnLine names source k ∧ u.AtEnd) := by
  obtain ⟨front, line, more, before, row, hrow, rfl⟩ := h
  obtain ⟨body, stop, rfl⟩ := hrow.exists_stop
  have hrow' : InRow _ front line more before (body ++ [stop.1]) (t.failed x) := hrow.congr rfl rfl
  have hflags : Dialogue.Flags true (t.failed x) := Dialogue.flags_of_failed rfl rfl rfl hn
  obtain ⟨hr, skipped, hskips⟩ :=
    Dialogue.exists_skips (d := ⟨t.failed x, {}⟩) hrow' (hs.failed x) hflags
  rw [Dialogue.answer, hu] at hr
  obtain ⟨-, hd⟩ := Prod.mk.inj hr
  obtain rfl : u = (t.failed x).resumed body stop := congrArg Dialogue.script hd
  constructor
  · apply Output.fatalLines_of_notices
    intro o ho
    rw [hskips.queue] at ho
    obtain ⟨d, hd, rfl⟩ := List.mem_map.mp ho
    exact Diagnostic.isNotice_of_isLexical (hskips.lexical d hd)
  · apply onLine_of_past hrow.isRow
    rcases hrow'.resumed (hs.failed x) with ⟨hk, -, -, hnext⟩ | hend
    · exact .inl ⟨hk, hnext⟩
    · exact .inr hend

theorem statement_atEnd (h : s.AtEnd) (hs : s.Sound) (scope : Scope) :
    ∃ t, Eval.statement scope s = .ok none t := by
  obtain ⟨stop, ha⟩ := h
  obtain ⟨t, ht, -⟩ := hs.exists_statement_end scope ha
  exact ⟨t, ht⟩

/-- A row has at most one fatal diagnostic. If there is one, the next row is on a later line, or the
end of the input. -/
theorem Passes.onLine (h : Passes c standIn b s os b' t) (hs : s.Sound) (hr : s.Ready)
    (hk : s.OnLine names source k) : ¬s.AtEnd ∧ ∃ k', k ≤ k' ∧ t.OnLine names source k' ∧
      (Output.fatalLines os = [] ∨ Output.fatalLines os = [k] ∧ (k < k' ∨ t.AtEnd)) := by
  have hstatement := statement_onLine hk hs ⟨b, standIn⟩ hr.queue
  constructor
  · intro hend
    obtain ⟨u, hu⟩ := statement_atEnd hend hs ⟨b, standIn⟩
    cases h with
    | line h => cases hu.symm.trans (Work.statement_more.mp h)
    | skip hk h hv => cases hu.symm.trans (Work.statement_error.mp h)
  · -- a line goes one line down, and a slip does so when the rest of its row is skipped
    rcases hstatement with ⟨r, u, hu, hnil, hnext⟩ | ⟨x, u, hu, hnil, hfatal, hline, hon⟩
    · cases h with
      | skip hk h hv => cases hu.symm.trans (Work.statement_error.mp h)
      | line h =>
        obtain ⟨-, rfl⟩ := EStateM.Result.ok.inj (hu.symm.trans (Work.statement_more.mp h))
        rcases hnext with hnext | ⟨hnext, -⟩
        · exact ⟨k + 1, Nat.le_succ k, hnext.congr rfl rfl, .inl hnil⟩
        · exact ⟨k, Nat.le_refl k, hnext.congr rfl rfl, .inl hnil⟩
    · cases h with
      | line h => cases hu.symm.trans (Work.statement_more.mp h)
      | @skip d v w hkeep h hw =>
        obtain ⟨hd, rfl⟩ := EStateM.Result.error.inj (hu.symm.trans (Work.statement_error.mp h))
        obtain rfl := Stop.fatal.inj hd
        obtain ⟨m, p⟩ := hs.exists_progress_of_error hu
        obtain ⟨hqueue, hnext⟩ :=
          recover_onLine hon (hs.progress p) (p.finished.trans hr.finished) hw
        have hlines : Output.fatalLines (u.queue ++ .diagnostic x :: w.queue) = [k] := by
          rw [List.append_cons, Output.fatalLines_append, Output.fatalLines_append, hnil, hqueue,
            Output.fatalLines_singleton hfatal, hline]
          rfl
        rcases hnext with hnext | ⟨hnext, hend⟩
        · exact ⟨k + 1, Nat.le_succ k, hnext.congr rfl rfl, .inr ⟨hlines, .inl (Nat.lt_succ_self k)⟩⟩
        · exact ⟨k, Nat.le_refl k, hnext.congr rfl rfl, .inr ⟨hlines, .inr hend⟩⟩

theorem Ends.onLine (h : Ends c standIn b s os c' t) (hs : s.Sound) (hr : s.Ready)
    (hk : s.OnLine names source k) :
    Output.fatalLines os = [] ∨ ¬s.AtEnd ∧ Output.fatalLines os = [k] := by
  rcases statement_onLine hk hs ⟨b, standIn⟩ hr.queue with
    ⟨r, u, hu, hnil, -⟩ | ⟨x, u, hu, hnil, hfatal, hline, -⟩
  · cases h with
    | stop hk h => cases hu.symm.trans (Work.statement_error.mp h)
    | done h =>
      obtain ⟨-, rfl⟩ := EStateM.Result.ok.inj (hu.symm.trans (Work.statement_finished.mp h))
      exact .inl hnil
  · cases h with
    | done h => cases hu.symm.trans (Work.statement_finished.mp h)
    | stop hk h =>
      obtain ⟨hd, rfl⟩ := EStateM.Result.error.inj (hu.symm.trans (Work.statement_error.mp h))
      obtain rfl := Stop.fatal.inj hd
      right
      constructor
      · intro hend
        obtain ⟨v, hv⟩ := statement_atEnd hend hs ⟨b, standIn⟩
        cases hu.symm.trans hv
      · rw [Output.fatalLines_append, hnil, Output.fatalLines_singleton hfatal, hline]
        rfl

/-- The fatal diagnostics of a run are on lines further and further down. -/
theorem Runs.fatalLines (h : Runs c standIn b s os c' b' t) (hs : s.Sound) (hr : s.Ready)
    (hk : s.OnLine names source k) : (Output.fatalLines os).Pairwise (· < ·) ∧
      (∀ n ∈ Output.fatalLines os, k ≤ n ∧ n ≤ 1 + lineBreaks source.toList) ∧
      (s.AtEnd → Output.fatalLines os = []) := by
  induction h generalizing k with
  | last h =>
    rcases h.onLine hs hr hk with hnil | ⟨hend, hone⟩
    · rw [hnil]
      exact ⟨.nil, by simp, fun _ => rfl⟩
    · rw [hone]
      refine ⟨List.pairwise_singleton _ k, fun n hn => ?_, fun he => absurd he hend⟩
      obtain rfl := List.mem_singleton.mp hn
      exact ⟨Nat.le_refl n, hk.le.2⟩
  | @pass _ _ _ _ _ _ os os' _ h rest ih =>
    obtain ⟨hs₁, hr₁⟩ := h.ready hs hr
    obtain ⟨hend, k', hle, hk', hlines⟩ := h.onLine hs hr hk
    obtain ⟨hpair, hbound, hnil⟩ := ih hs₁ hr₁ hk'
    rw [Output.fatalLines_append]
    rcases hlines with hlines | ⟨hlines, hnext⟩
    · rw [hlines]
      refine ⟨hpair, fun n hn => ?_, fun he => absurd he hend⟩
      obtain ⟨h₁, h₂⟩ := hbound n hn
      exact ⟨Nat.le_trans hle h₁, h₂⟩
    · -- the lines that come later are further down, or there are none
      have hlater : ∀ n ∈ Output.fatalLines os', k < n := by
        intro n hn
        rcases hnext with hlt | he
        · exact Nat.lt_of_lt_of_le hlt (hbound n hn).1
        · rw [hnil he] at hn
          cases hn
      rw [hlines]
      refine ⟨List.pairwise_cons.mpr ⟨hlater, hpair⟩, fun n hn => ?_, fun he => absurd he hend⟩
      rcases List.mem_cons.mp hn with rfl | hn
      · exact ⟨Nat.le_refl n, hk.le.2⟩
      · exact ⟨Nat.le_of_lt (hlater n hn), (hbound n hn).2⟩

end LineCalc
