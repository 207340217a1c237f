import LineCalc.Proofs.Grammar.Quiet
import LineCalc.Proofs.Requests.Dialogue
import LineCalc.Proofs.Transcript.Records

/-!
# What a statement stores

The value of an assignment is known before the line is known to be complete. Nevertheless only a
complete assignment without a fault changes the bindings; a line with a fault is reported once, after
all else that is said of it; and of a line that does not fit the grammar nothing is printed, stored
or reported as a fault. What is left of a fault has no effect on anything that comes later.
-/

namespace LineCalc

open Grammar Move

namespace Grammar

theorem Content.isArithmetic_of_mem_faults (scope : Scope) (c : Content) :
    ∀ d ∈ c.faults scope, d.isArithmetic = true := by
  intro d hd
  obtain ⟨x, hx⟩ := c.exists_of_mem_faults scope hd
  rw [Diagnostic.isArithmetic, hx]

theorem Slip.Fits.isFatal {x : Slip} (h : x.Fits) : x.diagnostic.isFatal = true := by
  cases x with
  | stray lead g w t d after =>
    obtain ⟨-, -, hb, -⟩ := h
    show d.isFatal = true
    rcases hb.eq_or_eq with rfl | rfl
    · rfl
    · rfl
  | trailing c t after => rfl

/-- What the verdict on a line puts into the queue. -/
theorem Content.queue_acts_verdict (scope : Scope) (c : Content) (s : Script) :
    (s.acts (c.verdict scope)).queue = s.queue ++ outputs (c.verdict scope) := by
  unfold verdict
  split
  · rfl
  · exact (List.append_nil _).symm
  · rfl
  · exact (List.append_nil _).symm

theorem Line.queue_acts_verdict (scope : Scope) (l : Line) (s : Script) :
    (s.acts (l.verdict scope)).queue = s.queue ++ outputs (l.verdict scope) := by
  cases l with
  | blank stop => exact (List.append_nil _).symm
  | full c stop => exact c.queue_acts_verdict scope s

/-- The bindings behind a line are other ones only if it is an assignment without a fault. -/
theorem Content.exists_of_bindings_ne {scope : Scope} {c : Content}
    (h : c.bindings scope ≠ scope.bindings) :
    ∃ m equals e r?, c = .expression (.store m equals) e r? ∧ e.faults scope = [] ∧
      c.bindings scope = scope.bindings.set m.name (e.value scope) := by
  cases c with
  | remark r => exact absurd rfl h
  | expression lead e r? =>
    cases hf : e.faults scope with
    | cons d ds =>
      refine absurd ?_ h
      rw [bindings, faults, hf]
      rfl
    | nil =>
      cases lead with
      | print =>
        refine absurd ?_ h
        rw [bindings, faults, hf]
        rfl
      | store m equals =>
        refine ⟨m, equals, e, r?, rfl, hf, ?_⟩
        rw [bindings, faults, hf]
        rfl

end Grammar

namespace Eval

variable {s : Script} {scope : Scope} {rest : List Token}

/-- A line comes to its result, and what the verdict on it puts out and stores comes last. -/
theorem statement_line (hs : s.Sound) (scope : Scope) (l : Line) (ha : s.ahead = l.tokens ++ rest)
    (hl : l.height ≤ maxNesting) :
    ∃ s' new, statement scope s = .ok (l.result scope) s' ∧
      s'.queue = s.queue ++ new ++ outputs (l.verdict scope) ∧ (∀ o ∈ new, o.isNotice = true) ∧
      s'.noted Event.stored? = s.noted Event.stored? ++ noted Event.stored? (l.verdict scope) := by
  obtain ⟨s', h, p, -⟩ := yields_statement scope l ha hs.room hl
  have hm := l.moves_eq scope
  have hlegal := p.legal
  rw [hm, allLegal_append] at hlegal
  obtain ⟨new, hq, hn⟩ := (Script.progress_acts hlegal.1).exists_queue hs.lexical
    (l.quiet_reading scope)
  refine ⟨s', new, h, ?_, hn, ?_⟩
  · rw [p.acts, hm, Script.acts_append, l.queue_acts_verdict, hq]
  · rw [p.acts, Script.noted_acts Event.inner_stored?, l.noted_stored?]

/-- A slip comes to a fatal diagnostic; nothing but notices is put out, and nothing is stored. -/
theorem statement_slip (hs : s.Sound) (scope : Scope) (x : Slip) (ha : s.ahead = x.tokens ++ rest)
    (hx : x.Fits) :
    ∃ s' new, statement scope s = .error (.fatal x.diagnostic) s' ∧ s'.queue = s.queue ++ new ∧
      (∀ o ∈ new, o.isNotice = true) ∧ s'.noted Event.stored? = s.noted Event.stored? := by
  obtain ⟨s', h, p⟩ := fails_statement scope x ha hs.room hx
  obtain ⟨new, hq, hn⟩ := p.exists_queue hs.lexical (x.quiet_moves scope)
  refine ⟨s', new, h, hq, hn, ?_⟩
  rw [p.acts, Script.noted_acts Event.inner_stored?, x.noted_stored?, List.append_nil]

end Eval

namespace Work

variable {standIn : Span → Number} {b : Bindings} {s : Script} {rest : List Token}

/-- What is left when the work is done or has failed. -/
def after {α : Type} (work : Work α) (w : Workspace) : Workspace :=
  match work w with
  | .ok _ w' | .error _ w' => w'

theorem after_of_ok {α : Type} {work : Work α} {w w' : Workspace} {a : α} (h : work w = .ok a w') :
    work.after w = w' := by
  rw [after, h]

theorem after_of_error {α : Type} {work : Work α} {w w' : Workspace} {e : Stop}
    (h : work w = .error e w') : work.after w = w' := by
  rw [after, h]

/-- The bindings change only if the line is a complete assignment without a fault. -/
theorem exists_of_bindings_after_ne (hs : s.Sound)
    (h : ((statement standIn).after ⟨s, b⟩).bindings ≠ b) :
    ∃ m equals e r? stop rest,
      s.ahead = (Line.full (.expression (.store m equals) e r?) stop).tokens ++ rest ∧
      e.height ≤ maxNesting ∧ e.faults ⟨b, standIn⟩ = [] ∧
      ((statement standIn).after ⟨s, b⟩).bindings = b.set m.name (e.value ⟨b, standIn⟩) := by
  rcases hs.exists_line_or_slip_ahead with ⟨l, rest, hl, ha⟩ | ⟨x, rest, hx, ha⟩
  · obtain ⟨s', new, he, -⟩ := Eval.statement_line hs ⟨b, standIn⟩ l ha hl
    rw [after_of_ok (statement_ok he)] at h ⊢
    cases l with
    | blank stop =>
      refine absurd ?_ h
      rw [Line.result]
      split
      · rfl
      · rfl
    | full c stop =>
      obtain ⟨m, equals, e, r?, rfl, hf, hb⟩ := Content.exists_of_bindings_ne (show
        c.bindings ⟨b, standIn⟩ ≠ b from h)
      exact ⟨m, equals, e, r?, stop, rest, ha, hl, hf, hb⟩
  · obtain ⟨s', new, he, -⟩ := Eval.statement_slip hs ⟨b, standIn⟩ x ha hx
    rw [after_of_error (statement_error.mpr he)] at h
    exact absurd rfl h

/-- A complete assignment without a fault is stored. -/
theorem statement_stored (hs : s.Sound) {m : Mention} {equals : { t : Token // t.kind = .equals }}
    {e : Phrase .sum} {r? : Option Remark} {stop : LineEnd}
    (ha : s.ahead = (Line.full (.expression (.store m equals) e r?) stop).tokens ++ rest)
    (hh : e.height ≤ maxNesting) (hf : e.faults ⟨b, standIn⟩ = []) :
    ∃ s', statement standIn ⟨s, b⟩ =
        .ok .more ⟨s', b.set m.name (e.value ⟨b, standIn⟩)⟩ ∧
      s'.noted Event.stored? = s.noted Event.stored? ++ [(m.name, e.value ⟨b, standIn⟩)] := by
  obtain ⟨s', new, he, -, -, hstored⟩ := Eval.statement_line hs ⟨b, standIn⟩ _ ha hh
  refine ⟨s', ?_, ?_⟩
  · rw [statement_ok he, Line.result, Content.bindings, Content.faults, hf]
    rfl
  · rw [hstored, Line.verdict, Content.verdict, Content.faults, hf]
    rfl

/-- A complete line with a fault is reported, and stores nothing. -/
theorem statement_faulted (hs : s.Sound) {c : Content} {stop : LineEnd}
    (ha : s.ahead = (Line.full c stop).tokens ++ rest) (hh : c.height ≤ maxNesting)
    (hf : c.faults ⟨b, standIn⟩ ≠ []) :
    ∃ s' new d, statement standIn ⟨s, b⟩ = .ok .more ⟨s', b⟩ ∧
      s'.noted Event.stored? = s.noted Event.stored? ∧
      (c.faults ⟨b, standIn⟩).head? = some d ∧ d.isArithmetic = true ∧
      s'.queue = s.queue ++ new ++ [.diagnostic d] ∧ ∀ o ∈ new, o.isNotice = true := by
  obtain ⟨d, ds, hd⟩ := List.exists_cons_of_ne_nil hf
  have hb : c.bindings ⟨b, standIn⟩ = b := by
    rw [Content.bindings, hd]
    rfl
  have hv : c.verdict ⟨b, standIn⟩ = [.forgive, .report d] := by
    rw [Content.verdict, hd]
    rfl
  obtain ⟨s', new, he, hq, hn, hstored⟩ := Eval.statement_line hs ⟨b, standIn⟩ (.full c stop) ha hh
  refine ⟨s', new, d, ?_, ?_, by rw [hd]; rfl, ?_, ?_, hn⟩
  · rw [statement_ok he, Line.result, hb]
    rfl
  · rw [hstored, Line.verdict, hv]
    exact List.append_nil _
  · exact c.isArithmetic_of_mem_faults _ d (by rw [hd]; exact List.mem_cons_self)
  · rw [hq, Line.verdict, hv]
    rfl

/-- If a statement ends early, it is with a fatal diagnostic; it has put out notices only, and stored
nothing. -/
theorem exists_of_statement_eq_error (hs : s.Sound) {stop : Stop} {w : Workspace}
    (h : statement standIn ⟨s, b⟩ = .error stop w) :
    w.bindings = b ∧ w.script.noted Event.stored? = s.noted Event.stored? ∧
      ∃ d new, stop = .fatal d ∧ d.isFatal = true ∧ w.script.queue = s.queue ++ new ∧
        ∀ o ∈ new, o.isNotice = true := by
  rcases hs.exists_line_or_slip_ahead with ⟨l, rest, hl, ha⟩ | ⟨x, rest, hx, ha⟩
  · obtain ⟨s', new, he, -⟩ := Eval.statement_line hs ⟨b, standIn⟩ l ha hl
    cases h.symm.trans (statement_ok he)
  · obtain ⟨s', new, he, hq, hn, hstored⟩ := Eval.statement_slip hs ⟨b, standIn⟩ x ha hx
    cases h.symm.trans (statement_error.mpr he)
    exact ⟨rfl, hstored, _, new, rfl, hx.isFatal, hq, hn⟩

/-- A statement that fails at what is ahead of a script leaves no trace in the bindings. -/
structure NoTrace (standIn : Span → Number) (b : Bindings) (s : Script) : Prop where
  /-- However the statement ends, the bindings are other ones only after a complete assignment without
  a fault, and then the name is bound to the value that the expression has with the bindings before. -/
  changed : ((statement standIn).after ⟨s, b⟩).bindings ≠ b →
    ∃ m equals e r? stop rest,
      s.ahead = (Line.full (.expression (.store m equals) e r?) stop).tokens ++ rest ∧
      e.height ≤ maxNesting ∧ e.faults ⟨b, standIn⟩ = [] ∧
      ((statement standIn).after ⟨s, b⟩).bindings = b.set m.name (e.value ⟨b, standIn⟩)
  /-- Such an assignment is always stored, and nothing else is. -/
  stored : ∀ m equals e r? stop rest,
    s.ahead = (Line.full (.expression (.store m equals) e r?) stop).tokens ++ rest →
    e.height ≤ maxNesting → e.faults ⟨b, standIn⟩ = [] →
    ∃ s', statement standIn ⟨s, b⟩ =
        .ok .more ⟨s', b.set m.name (e.value ⟨b, standIn⟩)⟩ ∧
      s'.noted Event.stored? = s.noted Event.stored? ++ [(m.name, e.value ⟨b, standIn⟩)]
  /-- A complete line with a fault puts out notices, and then its first fault; it prints nothing,
  stores nothing and leaves the bindings as they were. -/
  faulted : ∀ c stop rest, s.ahead = (Line.full c stop).tokens ++ rest → c.height ≤ maxNesting →
    c.faults ⟨b, standIn⟩ ≠ [] →
    ∃ s' new d, statement standIn ⟨s, b⟩ = .ok .more ⟨s', b⟩ ∧
      s'.noted Event.stored? = s.noted Event.stored? ∧
      (c.faults ⟨b, standIn⟩).head? = some d ∧ d.isArithmetic = true ∧
      s'.queue = s.queue ++ new ++ [.diagnostic d] ∧ ∀ o ∈ new, o.isNotice = true
  /-- A statement that ends early does so with a fatal diagnostic, and puts out notices only. Up to
  there nothing was stored, and the bindings are as they were. -/
  failed : ∀ stop w, statement standIn ⟨s, b⟩ = .error stop w →
    w.bindings = b ∧ w.script.noted Event.stored? = s.noted Event.stored? ∧
      ∃ d new, stop = .fatal d ∧ d.isFatal = true ∧ w.script.queue = s.queue ++ new ∧
        ∀ o ∈ new, o.isNotice = true
  /-- A fault that is on record before the statement makes no difference to it. -/
  forgotten : ∀ fault, statement standIn ⟨{ s with fault }, b⟩ = statement standIn ⟨s, b⟩
  /-- Nor does it to anything that is asked of the script later on. -/
  unnoticed : ∀ fault b qs,
    (Dialogue.serve ⟨{ s with fault }, b⟩ qs).1 = (Dialogue.serve ⟨s, b⟩ qs).1 ∧
      (Dialogue.serve ⟨{ s with fault }, b⟩ qs).2.bindings = (Dialogue.serve ⟨s, b⟩ qs).2.bindings

/-- **A failing statement leaves no trace in the bindings**, whatever the script has gone through
before. -/
theorem statement_leaves_no_trace (hs : s.Sound) (standIn : Span → Number) (b : Bindings) :
    NoTrace standIn b s where
  changed := exists_of_bindings_after_ne hs
  stored _ _ _ _ _ _ ha hh hf := statement_stored hs ha hh hf
  faulted _ _ _ ha hh hf := statement_faulted hs ha hh hf
  failed _ _ h := exists_of_statement_eq_error hs h
  forgotten _ := rfl
  unnoticed fault b qs := Dialogue.serve_stale (d := ⟨s, b⟩) hs fault s.depth qs

/-- An assignment to a name that is bound already, with a division by zero. -/
theorem statement_leaves_no_trace_quotient :
    (Script.ofText .free "x = x / 0\nx").Sound ∧
      NoTrace (fun _ => .int 0) (({} : Bindings).set "x" (.int 1)) (.ofText .free "x = x / 0\nx") :=
  ⟨Script.sound_ofText .free _, statement_leaves_no_trace (Script.sound_ofText .free _) _ _⟩

end Work

end LineCalc
