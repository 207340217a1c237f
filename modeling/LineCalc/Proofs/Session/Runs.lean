import LineCalc.Proofs.Safety
import LineCalc.Session

/-!
# Runs, row by row

A run pulls its outputs one by one, with turns to count. `Runs` says the same without turns: a run
passes row after row of the text, until it ends. What it hands over for a row is all that the row
put into the queue, and the fatal diagnostic, if the row has one.
-/

namespace LineCalc

namespace Script

/-- The script when all that it put out was handed over. -/
def flushed (s : Script) : Script := { s with queue := [] }

/-- The script when the fatal diagnostic `d` was handed over as well. -/
def failed (s : Script) (d : Diagnostic) : Script := { s.halt d with queue := [], failure := none }

/-- A statement is due: nothing waits to be handed over, and the script has not stopped. -/
structure Due (s : Script) : Prop where
  queue : s.queue = []
  failure : s.failure = none
  halted : s.halted = false

/-- A script that is about to evaluate a row. -/
structure Ready (s : Script) : Prop where
  queue : s.queue = []
  failure : s.failure = none
  halted : s.halted = false
  finished : s.finished = false

theorem Ready.due {s : Script} (h : s.Ready) : s.Due := ⟨h.queue, h.failure, h.halted⟩

end Script

open Script

/-- A row is passed: `os` is put out, and the run goes on with the script `s'`. -/
inductive Passes (keepGoing : Bool) (standIn : Span → Number) (b : Bindings) (s : Script) :
    List Output → Bindings → Script → Prop where
  | line {b' : Bindings} {t : Script} (h : Work.statement standIn ⟨s, b⟩ = .ok .more ⟨t, b'⟩) :
      Passes keepGoing standIn b s t.queue b' t.flushed
  | skip {d : Diagnostic} {t u : Script} (hk : keepGoing = true)
      (h : Work.statement standIn ⟨s, b⟩ = .error (.fatal d) ⟨t, b⟩)
      (hr : Feed.recover (t.failed d) = .ok true u) :
      Passes keepGoing standIn b s (t.queue ++ .diagnostic d :: u.queue) b u.flushed

/-- The run ends here, and `os` is put out. The flag tells whether it is complete. -/
inductive Ends (keepGoing : Bool) (standIn : Span → Number) (b : Bindings) (s : Script) :
    List Output → Bool → Script → Prop where
  | done {t : Script} (h : Work.statement standIn ⟨s, b⟩ = .ok .finished ⟨t, b⟩) :
      Ends keepGoing standIn b s t.queue true t.finish.flushed
  | stop {d : Diagnostic} {t : Script} (hk : keepGoing = false)
      (h : Work.statement standIn ⟨s, b⟩ = .error (.fatal d) ⟨t, b⟩) :
      Ends keepGoing standIn b s (t.queue ++ [.diagnostic d]) false (t.failed d)

/-- A whole run. -/
inductive Runs (keepGoing : Bool) (standIn : Span → Number) :
    Bindings → Script → List Output → Bool → Bindings → Script → Prop where
  | last {b : Bindings} {s t : Script} {os : List Output} {c : Bool}
      (h : Ends keepGoing standIn b s os c t) : Runs keepGoing standIn b s os c b t
  | pass {b b₁ b' : Bindings} {s s₁ t : Script} {os os' : List Output} {c : Bool}
      (h : Passes keepGoing standIn b s os b₁ s₁) (rest : Runs keepGoing standIn b₁ s₁ os' c b' t) :
      Runs keepGoing standIn b s (os ++ os') c b' t

variable {config : Config} {standIn : Span → Number} {b b' : Bindings} {s t : Script}
variable {os acc : List Output} {c : Bool} {turns : Nat} {d : Diagnostic}

/-! ### Turns -/

namespace Script

/-- One turn more makes no difference to pulling an output. -/
theorem pull_succ (h : (s.pull standIn turns b).1 ≠ .breach .turns) :
    s.pull standIn (turns + 1) b = s.pull standIn turns b := by
  -- the loop goes on only behind a statement, so the turn more is never used
  induction turns generalizing s b with
  | zero => exact absurd rfl h
  | succ turns ih =>
    rw [pull_eq] at h
    rw [pull_eq, pull_eq]
    cases hq : s.queue with
    | cons o rest => rfl
    | nil =>
      rw [hq] at h
      cases hf : s.failure with
      | some d => rfl
      | none =>
        rw [hf] at h
        by_cases hh : s.halted = true
        · simp only [hh, if_true]
        · simp only [hh] at h ⊢
          cases he : Eval.statement ⟨b, standIn⟩ s with
          | ok r t =>
            rw [he] at h
            cases r with
            | none => exact ih h
            | some b' => exact ih h
          | error e t =>
            rw [he] at h
            cases e with
            | fatal d => exact ih h
            | breach b => rfl

theorem pull_of_due (h : s.Due) : s.pull standIn (turns + 1) b =
    match Eval.statement ⟨b, standIn⟩ s with
    | .ok (some b') t => t.pull standIn turns b'
    | .ok none t => t.finish.pull standIn turns b
    | .error (.fatal d) t => (t.halt d).pull standIn turns b
    | .error (.breach x) t => (.breach x, b, t) := by
  rw [pull_eq]
  simp only [h.queue, h.failure, h.halted]
  rfl

/-- What comes next is what comes next of the script behind the statement. -/
theorem next_eq {u : Script} (hu : u.Sound) (hz : u.size = s.size)
    (h : s.pull standIn (s.size + 1 + 1) b = u.pull standIn (s.size + 1) b') :
    s.next standIn b = u.next standIn b' := by
  have hl : u.ahead.length < s.size + 1 := by
    have := hu.room
    omega
  obtain ⟨p, b₁, u₁, hp, hn, -⟩ : ∃ p b₁ u₁, u.pull standIn (s.size + 1) b' = (p, b₁, u₁) ∧
      (∀ x, p ≠ .breach x) ∧ u₁.Sound := pull_sound hu hl
  rw [next, next, h, hz]
  refine (pull_succ ?_).symm
  rw [hp]
  exact hn _

namespace Sound

variable {scope : Scope}

theorem flushed (hs : s.Sound) : s.flushed.Sound := ⟨hs.ends, hs.wellFormed, hs.lexical, hs.room⟩

theorem failed (hs : s.Sound) (d : Diagnostic) : (s.failed d).Sound :=
  ⟨hs.ends, hs.wellFormed, hs.lexical, hs.room⟩

theorem exists_progress_of_ok {r : Option Bindings} (hs : s.Sound)
    (h : Eval.statement scope s = .ok r t) : ∃ m, Progress s m t := by
  obtain ⟨row, rest, ha, hr⟩ := hs.exists_row
  obtain ⟨l, -, -, t', ht, p, -⟩ | ⟨x, -, -, t', ht, p⟩ := hs.statement_cases scope ha hr
  · rw [h] at ht
    cases ht
    exact ⟨_, p⟩
  · rw [h] at ht
    cases ht

theorem exists_progress_of_error {e : Stop} (hs : s.Sound)
    (h : Eval.statement scope s = .error e t) : ∃ m, Progress s m t := by
  obtain ⟨row, rest, ha, hr⟩ := hs.exists_row
  obtain ⟨l, -, -, t', ht, p, -⟩ | ⟨x, -, -, t', ht, p⟩ := hs.statement_cases scope ha hr
  · rw [h] at ht
    cases ht
  · rw [h] at ht
    cases ht
    exact ⟨_, p⟩

end Sound

/-- Where a row stops for good, its outputs and then its diagnostic come next. -/
theorem next_of_fatal (hs : s.Sound) (hd : s.Due)
    (h : Eval.statement ⟨b, standIn⟩ s = .error (.fatal d) t) :
    s.next standIn b = (t.halt d).next standIn b := by
  obtain ⟨m, p⟩ := hs.exists_progress_of_error h
  refine next_eq ((hs.progress p).halt d) p.size ?_
  rw [pull_of_due hd, h]

theorem next_flushed_halt : (s.halt d).flushed.next standIn b = (.failure d, b, s.failed d) := rfl

/-! ### Draining -/

theorem drain_congr {u : Script} (h : s.next config.standIn b = u.next config.standIn b')
    (acc : Array Output) :
    s.drain config (turns + 1) acc b = u.drain config (turns + 1) acc b' := by
  rw [drain, drain, h]

/-- What waits in the queue is handed over first. -/
theorem drain_queue (acc : Array Output) : s.drain config (turns + s.queue.length) acc b =
    s.flushed.drain config turns (acc ++ s.queue.toArray) b := by
  induction hq : s.queue generalizing s acc with
  | nil =>
    have hs : s.flushed = s := by rw [flushed, ← hq]
    rw [hs]
    simp
  | cons o rest ih =>
    have hn : s.next config.standIn b = (.output o, b, { s with queue := rest }) := by
      rw [next, pull, hq]
    rw [List.length_cons, ← Nat.add_assoc, drain, hn]
    have hr := ih (s := { s with queue := rest }) (acc.push o) rfl
    show Script.drain config _ _ b { s with queue := rest } = _
    rw [hr]
    simp [flushed]

/-- What the script has put out behind its statement is handed over, and draining goes on there. -/
theorem drain_of_next {u : Script} (h : s.next config.standIn b = u.next config.standIn b')
    (acc : Array Output) : s.drain config (turns + 1 + u.queue.length) acc b =
      u.flushed.drain config (turns + 1) (acc ++ u.queue.toArray) b' := by
  rw [Nat.add_right_comm, drain_congr h, ← Nat.add_right_comm, drain_queue]

end Script

/-! ### Rows -/

/-- After recovering a script is about to evaluate the next row. -/
theorem Script.Sound.ready_of_recover {u : Script} (hs : s.Sound) (hh : s.halted = true)
    (hn : s.finished = false) (hu : Feed.recover s = .ok true u) :
    u.flushed.Sound ∧ u.flushed.Ready := by
  obtain ⟨row, rest, ha, body, stop, rfl, hstop, hb⟩ := hs.exists_row
  obtain ⟨s', h', p⟩ := Feed.recover_eq hs.room hh hn ⟨stop, hstop⟩ (by simpa using ha) hb
  rw [hu] at h'
  cases h'
  have hs₁ : { s with failure := none }.Sound := ⟨hs.ends, hs.wellFormed, hs.lexical, hs.room⟩
  have h' := hs₁.progress p
  exact ⟨⟨h'.ends, h'.wellFormed, h'.lexical, h'.room⟩, rfl, p.failure, rfl, p.finished.trans hn⟩

namespace Passes

theorem ready (h : Passes c standIn b s os b' t) (hs : s.Sound) (hr : s.Ready) :
    t.Sound ∧ t.Ready := by
  cases h with
  | line h =>
    obtain ⟨m, p⟩ := hs.exists_progress_of_ok (Work.statement_more.mp h)
    exact ⟨(hs.progress p).flushed, rfl, p.failure.trans hr.failure, p.halted.trans hr.halted,
      p.finished.trans hr.finished⟩
  | skip hk h hu =>
    obtain ⟨m, p⟩ := hs.exists_progress_of_error (Work.statement_error.mp h)
    exact ((hs.progress p).failed _).ready_of_recover rfl (p.finished.trans hr.finished) hu

/-- Draining hands over what a row puts out, and goes on behind it. -/
theorem drain_eq (h : Passes config.keepGoing config.standIn b s os b' t) (hs : s.Sound)
    (hr : s.Ready) (acc : Array Output) :
    s.drain config (turns + 1 + os.length) acc b =
      t.drain config (turns + 1) (acc ++ os.toArray) b' := by
  cases h with
  | @line _ u h =>
    replace h := Work.statement_more.mp h
    obtain ⟨m, p⟩ := hs.exists_progress_of_ok h
    have hn : s.next config.standIn b = u.next config.standIn b' := by
      refine next_eq (hs.progress p) p.size ?_
      rw [pull_of_due hr.due, h]
    exact drain_of_next hn acc
  | @skip d u v hk h hv =>
    -- one turn hands over the diagnostic, between what the row put out and what recovering does
    have hl : turns + 1 + (u.queue ++ Output.diagnostic d :: v.queue).length =
        turns + 1 + v.queue.length + 1 + (u.halt d).queue.length := by
      show _ = turns + 1 + v.queue.length + 1 + u.queue.length
      simp only [List.length_append, List.length_cons]
      omega
    rw [hl, drain_of_next (next_of_fatal hs hr.due (Work.statement_error.mp h)), drain, next_flushed_halt]
    simp only [hk, if_true, hv]
    rw [drain_queue]
    simp [halt, logged]

end Passes

namespace Ends

/-- Draining ends where the run ends. -/
theorem drain_eq (h : Ends config.keepGoing config.standIn b s os c t) (hs : s.Sound)
    (hr : s.Ready) (acc : Array Output) :
    s.drain config (turns + 1 + os.length) acc b =
      (Transcript.ofScript t (acc ++ os.toArray) c, b) := by
  cases h with
  | @done u h =>
    replace h := Work.statement_finished.mp h
    obtain ⟨m, p⟩ := hs.exists_progress_of_ok h
    have hn : s.next config.standIn b = u.finish.next config.standIn b := by
      refine next_eq (hs.progress p).finish p.size ?_
      rw [pull_of_due hr.due, h]
    -- nothing has failed and nothing waits, so the script has come to its end
    have hf : u.finish.flushed.failure = none := p.failure.trans hr.failure
    have he : u.finish.flushed.next config.standIn b = (.nothing, b, u.finish.flushed) := by
      rw [next, pull]
      simp only [hf]
      rfl
    have hq : u.queue = u.finish.queue := rfl
    rw [hq, drain_of_next hn, drain, he]
  | @stop d u hk h =>
    have hl : turns + 1 + (u.queue ++ [Output.diagnostic d]).length =
        turns + 1 + 1 + (u.halt d).queue.length := by
      show _ = turns + 1 + 1 + u.queue.length
      simp only [List.length_append, List.length_cons, List.length_nil]
      omega
    rw [hl, drain_of_next (next_of_fatal hs hr.due (Work.statement_error.mp h)), drain, next_flushed_halt]
    simp [hk, halt, logged]

end Ends

/-- A run that hands over few enough outputs is what draining gives. -/
theorem Runs.drain_eq (h : Runs config.keepGoing config.standIn b s os c b' t) (hs : s.Sound)
    (hr : s.Ready) (ht : os.length < turns) (acc : Array Output) :
    s.drain config turns acc b = (Transcript.ofScript t (acc ++ os.toArray) c, b') := by
  induction h generalizing turns acc with
  | @last _ _ _ os _ h =>
    obtain ⟨n, rfl⟩ : ∃ n, turns = n + 1 + os.length := ⟨turns - 1 - os.length, by omega⟩
    exact h.drain_eq hs hr acc
  | @pass _ _ _ _ _ _ os os' _ h rest ih =>
    obtain ⟨hs₁, hr₁⟩ := h.ready hs hr
    rw [List.length_append] at ht
    obtain ⟨n, rfl⟩ : ∃ n, turns = n + 1 + os.length := ⟨turns - 1 - os.length, by omega⟩
    rw [h.drain_eq hs hr, ih hs₁ hr₁ (by omega)]
    simp

end LineCalc
