import LineCalc.Proofs.Evaluation.Outcome
import LineCalc.Script.Pull

/-!
# The bindings as a result

The bindings are part of the state of a statement, and might be changed by any of its steps. In fact
they are changed by the last one only. So a statement does what an evaluation does that leaves them
alone, and has those to go on with as its result: `Eval.statement` is this evaluation, and
`Work.statement_eq` says that it is the same.
-/

namespace LineCalc

namespace Eval

/-- The bindings after what a complete line asks for. A line with a fault is reported instead. -/
def perform (bindings : Bindings) (deed : Deed) : Eval Bindings := do
  match (← get).fault with
  | some d =>
    modify fun s => { s with fault := none }
    modify (·.report d)
    return bindings
  | none =>
    match deed with
    | .nothing => return bindings
    | .print value =>
      modify (·.print value)
      return bindings
    | .store name value =>
      Feed.emit (.stored name value)
      return bindings.set name value

/-- The bindings after the next statement. There are none at the end of the input. -/
def statement (scope : Scope) : Eval (Option Bindings) := do
  modify (·.cleared)
  match (← Feed.peek 0).kind with
  | .endOfInput => return none
  | .newLine =>
    let _ ← Feed.advance
    return some scope.bindings
  | _ =>
    modify (·.counted)
    let deed ← deed scope
    trailingComment
    endLine
    return some (← perform scope.bindings deed)

end Eval

namespace Work

variable {α β γ : Type} {b : Bindings} {work : Work α} {m : Eval β} {after : β → α × Bindings}

/-- With the bindings `b`, the work does what `m` does. What it comes to, and the bindings then, are
told by the result of `m`; if `m` fails, the bindings are still `b`. -/
def Tracks (b : Bindings) (work : Work α) (m : Eval β) (after : β → α × Bindings) : Prop :=
  ∀ s, work ⟨s, b⟩ =
    match m s with
    | .ok r s' => .ok (after r).1 ⟨s', (after r).2⟩
    | .error e s' => .error e ⟨s', b⟩

/-- A step that takes tokens is a step of an evaluation. -/
theorem liftM_feed (step : Feed γ) : (liftM step : Work γ) = liftM (liftM step : Eval γ) := rfl

theorem onScript_eq (f : Script → Script) : onScript f = liftM (modify f : Eval Unit) := rfl

/-- A step of the evaluation leaves the bindings alone. -/
theorem Tracks.step (step : Eval γ) {f : γ → Work α} {g : γ → Eval β}
    (h : ∀ c, Tracks b (f c) (g c) after) : Tracks b (liftM step >>= f) (step >>= g) after := by
  intro s
  show EStateM.bind (liftM step) f ⟨s, b⟩ = match EStateM.bind step g s with
    | .ok r s' => .ok (after r).1 ⟨s', (after r).2⟩
    | .error e s' => .error e ⟨s', b⟩
  have hlift : (liftM step : Work γ) ⟨s, b⟩ =
      match step s with
      | .ok c s' => .ok c ⟨s', b⟩
      | .error e s' => .error e ⟨s', b⟩ := rfl
  unfold EStateM.bind
  rw [hlift]
  cases step s with
  | ok c s' => exact h c s'
  | error e s' => rfl

/-- The bindings may be looked up at any time. -/
theorem Tracks.bindings {f : Workspace → Work α} (h : ∀ s, Tracks b (f ⟨s, b⟩) m after) :
    Tracks b (get >>= f) m after := fun s => h s s

theorem Tracks.result {a : α} {r : β} (h : after r = (a, b)) :
    Tracks b (pure a) (pure r) after := by
  intro s
  show EStateM.Result.ok a _ = EStateM.Result.ok (after r).1 _
  rw [h]

/-- What a statement comes to, if it has a result. -/
def afterwards (b : Bindings) : Option Bindings → Outlook × Bindings
  | some b' => (.more, b')
  | none => (.finished, b)

/-- The one step that may change the bindings is the last one. -/
theorem tracks_perform (b : Bindings) (todo : Deed) :
    Tracks b (perform todo >>= fun _ => pure .more)
      (Eval.perform b todo >>= fun b' => pure (some b')) (afterwards b) := by
  intro s
  obtain ⟨unread, size, lookahead, queue, fault⟩ := s
  cases fault with
  | some d => rfl
  | none => cases todo <;> rfl

theorem tracks_statement (standIn : Span → Number) (b : Bindings) :
    Tracks b (statement standIn) (Eval.statement ⟨b, standIn⟩) (afterwards b) := by
  unfold statement Eval.statement
  simp only [onScript_eq, liftM_feed]
  refine Tracks.step _ fun _ => Tracks.step _ fun t => ?_
  cases t.kind with
  | endOfInput => exact Tracks.result rfl
  | newLine => exact Tracks.step _ fun _ => Tracks.result rfl
  | _ =>
    refine Tracks.step _ fun _ => Tracks.bindings fun _ => ?_
    refine Tracks.step _ fun todo => Tracks.step _ fun _ => Tracks.step _ fun _ => ?_
    exact tracks_perform b todo

/-- A statement comes to what the evaluation tells. If that fails, nothing was stored. -/
theorem statement_eq (standIn : Span → Number) (s : Script) (b : Bindings) :
    statement standIn ⟨s, b⟩ =
      match Eval.statement ⟨b, standIn⟩ s with
      | .ok (some b') t => .ok .more ⟨t, b'⟩
      | .ok none t => .ok .finished ⟨t, b⟩
      | .error e t => .error e ⟨t, b⟩ := by
  rw [tracks_statement standIn b s]
  cases Eval.statement ⟨b, standIn⟩ s with
  | error e t => rfl
  | ok r t => cases r <;> rfl

variable {standIn : Span → Number} {s t : Script} {b' : Bindings} {e : Stop}

/-- If there is a result, the bindings to go on with are in it. -/
theorem statement_ok {r : Option Bindings} (h : Eval.statement ⟨b, standIn⟩ s = .ok r t) :
    statement standIn ⟨s, b⟩ = .ok (afterwards b r).1 ⟨t, (afterwards b r).2⟩ := by
  rw [tracks_statement standIn b s, h]

theorem exists_of_statement_ok {r : Outlook} {w : Workspace}
    (h : statement standIn ⟨s, b⟩ = .ok r w) :
    ∃ r', Eval.statement ⟨b, standIn⟩ s = .ok r' w.script ∧ afterwards b r' = (r, w.bindings) := by
  cases he : Eval.statement ⟨b, standIn⟩ s with
  | ok r' t =>
    obtain ⟨rfl, rfl⟩ := EStateM.Result.ok.inj (h.symm.trans (statement_ok he))
    exact ⟨r', rfl, rfl⟩
  | error e t =>
    rw [statement_eq, he] at h
    cases h

theorem statement_eq_error {w : Workspace} (h : statement standIn ⟨s, b⟩ = .error e w) :
    Eval.statement ⟨b, standIn⟩ s = .error e w.script := by
  rw [statement_eq] at h
  cases he : Eval.statement ⟨b, standIn⟩ s with
  | ok r t =>
    rw [he] at h
    cases r <;> cases h
  | error e t =>
    rw [he] at h
    cases h
    rfl

theorem statement_more : statement standIn ⟨s, b⟩ = .ok .more ⟨t, b'⟩ ↔
    Eval.statement ⟨b, standIn⟩ s = .ok (some b') t := by
  rw [statement_eq]
  cases Eval.statement ⟨b, standIn⟩ s with
  | error e t => simp
  | ok r t => cases r <;> simp [and_comm]

theorem statement_finished : statement standIn ⟨s, b⟩ = .ok .finished ⟨t, b⟩ ↔
    Eval.statement ⟨b, standIn⟩ s = .ok none t := by
  rw [statement_eq]
  cases Eval.statement ⟨b, standIn⟩ s with
  | error e t => simp
  | ok r t => cases r <;> simp

theorem statement_error : statement standIn ⟨s, b⟩ = .error e ⟨t, b⟩ ↔
    Eval.statement ⟨b, standIn⟩ s = .error e t := by
  rw [statement_eq]
  cases Eval.statement ⟨b, standIn⟩ s with
  | error e t => simp
  | ok r t => cases r <;> simp

theorem exists_fatal {α : Type} {r : EStateM.Result Stop Workspace α}
    (h : (r matches .error (.fatal _) _) = true) : ∃ d w, r = .error (.fatal d) w := by
  split at h
  · exact ⟨_, _, rfl⟩
  · cases h

end Work

/-- A turn of pulling, with the bindings as a result of the statement. -/
theorem Script.pull_eq (standIn : Span → Number) (turns : Nat) (b : Bindings) (s : Script) :
    s.pull standIn (turns + 1) b =
      match s.queue with
      | o :: rest => (.output o, b, { s with queue := rest })
      | [] =>
        match s.failure with
        | some d => (.failure d, b, { s with failure := none })
        | none =>
          if s.halted then (.nothing, b, s)
          else
            match Eval.statement ⟨b, standIn⟩ s with
            | .ok (some b') t => t.pull standIn turns b'
            | .ok none t => t.finish.pull standIn turns b
            | .error (.fatal d) t => (t.halt d).pull standIn turns b
            | .error (.breach x) t => (.breach x, b, t) := by
  rw [pull, Work.statement_eq]
  cases Eval.statement ⟨b, standIn⟩ s with
  | ok r t => cases r <;> rfl
  | error e t => cases e <;> rfl

end LineCalc
