import LineCalc.Proofs.Evaluation.StandIn
import LineCalc.Proofs.Grammar.Spots
import LineCalc.Proofs.Reading.Along

/-!
# A run and what stands in for failed operations

Whatever number an operation without a value counts as, a run puts out the same, and leaves the same
bindings. Only the log tells with which numbers the evaluation went on. No two operations of a text
have the same place, so that a number for each place may be another one for each operation.
-/

namespace LineCalc

open Grammar

variable {standIn standIn' : Span → Number} {b : Bindings} {s s' : Script} {turns : Nat}

/-! ### Requests -/

namespace Script

/-- What is pulled does not hang on what stands in for failed operations. -/
theorem pull_relogged (h : Relogged s s') : ∃ p b' t t', s.pull standIn turns b = (p, b', t) ∧
    s'.pull standIn' turns b = (p, b', t') ∧ Relogged t t' := by
  induction turns generalizing s s' b with
  | zero => exact ⟨_, b, s, s', rfl, rfl, h⟩
  | succ turns ih =>
    obtain ⟨log, rfl⟩ := h
    have hqueue : (s.relogged log).queue = s.queue := rfl
    have hfailure : (s.relogged log).failure = s.failure := rfl
    have hhalted : (s.relogged log).halted = s.halted := rfl
    -- the loop looks at the queue and the flags, which are the same; only the log is another one
    rw [pull_eq, pull_eq, hqueue, hfailure, hhalted]
    cases s.queue with
    | cons o rest => exact ⟨_, b, _, _, rfl, rfl, log, rfl⟩
    | nil =>
      cases s.failure with
      | some d => exact ⟨_, b, _, _, rfl, rfl, log, rfl⟩
      | none =>
        cases s.halted with
        | true => exact ⟨_, b, _, _, rfl, rfl, log, rfl⟩
        | false =>
          obtain ⟨r, r', t, t', hr, hr', ⟨log', rfl⟩, rfl, -⟩ | ⟨e, t, t', hr, hr', log', rfl⟩ :=
            (Shrouded.statement ⟨b, standIn⟩ standIn' s (s.relogged log) ⟨log, rfl⟩
              fun _ => trivial).ok_or_error
          · simp only [hr, hr', Bool.false_eq_true, if_false]
            cases r with
            | some b' => exact ih ⟨log', rfl⟩
            | none => exact ih ⟨log', rfl⟩
          · simp only [hr, hr', Bool.false_eq_true, if_false]
            cases e with
            | fatal d => exact ih ⟨_ :: log', rfl⟩
            | breach x => exact ⟨_, b, _, _, rfl, rfl, log', rfl⟩

end Script

theorem Feed.recover_relogged (h : Relogged s s') :
    (∃ r t t', Feed.recover s = .ok r t ∧ Feed.recover s' = .ok r t' ∧ Relogged t t') ∨
    ∃ x t t', Feed.recover s = .error x t ∧ Feed.recover s' = .error x t' ∧ Relogged t t' := by
  obtain ⟨log, rfl⟩ := h
  have hflags : (!(s.relogged log).halted || (s.relogged log).finished) =
    (!s.halted || s.finished) := rfl
  rw [Feed.recover, get_bind, get_bind, hflags]
  by_cases hf : (!s.halted || s.finished) = true
  · rw [if_pos hf, if_pos hf]
    exact .inl ⟨false, s, s.relogged log, rfl, rfl, log, rfl⟩
  · rw [if_neg hf, if_neg hf]
    have hwake : Steady (modify fun s => { s with halted := false } : Feed Unit) :=
      Steady.update (fun _ log => ⟨log, rfl⟩) fun _ => rfl
    have hgo := (Steady.skipLine (s.size + 1)).bind fun _ => hwake.bind fun _ => Steady.result true
    obtain ⟨r, r', t, t', hr, hr', ht, rfl, -⟩ | ⟨x, t, t', hr, hr', ht⟩ :=
      (hgo True { s with failure := none } ({ s with failure := none }.relogged log) ⟨log, rfl⟩
        fun _ => trivial).ok_or_error
    · exact .inl ⟨r, t, t', hr, hr', ht⟩
    · exact .inr ⟨x, t, t', hr, hr', ht⟩

/-! ### Transcripts -/

/-- Two transcripts that differ in nothing but their logs. -/
def Transcript.Relogged (t t' : Transcript) : Prop := ∃ log, t' = { t with log := log }

theorem Relogged.transcript (h : Relogged s s') (outputs : Array Output) (completed : Bool)
    (breach : Option Breach) :
    Transcript.Relogged { Transcript.ofScript s outputs completed with breach := breach }
      { Transcript.ofScript s' outputs completed with breach := breach } := by
  obtain ⟨log, rfl⟩ := h
  exact ⟨_, rfl⟩

theorem Script.drain_relogged (config config' : Config) (hk : config'.keepGoing = config.keepGoing)
    (acc : Array Output) (h : Relogged s s') : ∃ t t' b',
      s.drain config turns acc b = (t, b') ∧ s'.drain config' turns acc b = (t', b') ∧
        Transcript.Relogged t t' := by
  induction turns generalizing s s' b acc with
  | zero => exact ⟨_, _, b, rfl, rfl, h.transcript acc false (some .turns)⟩
  | succ turns ih =>
    obtain ⟨p, b', t, t', ht, ht', hrel⟩ : ∃ p b' t t', s.next config.standIn b = (p, b', t) ∧
        s'.next config'.standIn b = (p, b', t') ∧ Relogged t t' := by
      obtain ⟨log, rfl⟩ := h
      exact pull_relogged ⟨log, rfl⟩
    rw [drain, drain, ht, ht']
    -- both sides hand over the same, and go on alike
    cases p with
    | output o => exact ih _ hrel
    | nothing => exact ⟨_, _, b', rfl, rfl, hrel.transcript acc true none⟩
    | breach x => exact ⟨_, _, b', rfl, rfl, hrel.transcript acc false (some x)⟩
    | failure d =>
      simp only [hk]
      cases config.keepGoing with
      | false => exact ⟨_, _, b', rfl, rfl, hrel.transcript _ false none⟩
      | true =>
        obtain ⟨r, u, u', hu, hu', hrel⟩ | ⟨x, u, u', hu, hu', hrel⟩ := Feed.recover_relogged hrel
        · simp only [hu, hu', if_true]
          cases r with
          | true => exact ih _ hrel
          | false => exact ⟨_, _, b', rfl, rfl, hrel.transcript _ true none⟩
        · simp only [hu, hu', if_true]
          exact ⟨_, _, b', rfl, rfl, hrel.transcript _ false (some x)⟩

/-! ### The places of operations -/

/-- No two operations start at the same place, in expressions that stand one behind the other in a
text. -/
theorem Grammar.nodup_starts (names : NameGrammar) (source : String) (es : List (Phrase .sum))
    (h : (es.flatMap Phrase.tokens).Sublist (Reading.tokens (Reading.ofText names source))) :
    (es.flatMap fun e => e.places.map (·.start)).Nodup := by
  have hnodup := (Reading.nodup_starts names source).sublist (h.map _)
  clear h
  induction es with
  | nil => exact List.nodup_nil
  | cons e es ih =>
    rw [List.flatMap_cons, List.map_append, List.nodup_append] at hnodup
    obtain ⟨he, hes, hne⟩ := hnodup
    rw [List.flatMap_cons, List.nodup_append]
    refine ⟨e.nodup_starts he, ih hes, fun p hp q hq => hne p (e.starts_subset hp) q ?_⟩
    obtain ⟨e', he', hq⟩ := List.mem_flatMap.mp hq
    obtain ⟨t, ht, rfl⟩ := List.mem_map.mp (e'.starts_subset hq)
    exact List.mem_map_of_mem (List.mem_flatMap.mpr ⟨e', he', ht⟩)

/-- **What stands in for failed operations is never seen.** If any number whatever, and at each
place another one, is what a failed operation counts as, then a session puts out the same as with
zero in its place: the same outputs, counts and bindings. And no two operations of the text have the
same place, so that this covers a choice for each failure. -/
theorem Session.run_standIn (config : Config) (bindings : Bindings) (source : String)
    (standIn : Span → Number) :
    let run := fun standIn => Session.run ⟨{ config with standIn := standIn }, bindings⟩ source
    let zero := fun _ => .int 0
    (run standIn).1.outputs = (run zero).1.outputs ∧
    (run standIn).1.completed = (run zero).1.completed ∧
    (run standIn).1.readTally = (run zero).1.readTally ∧
    (run standIn).1.evalTally = (run zero).1.evalTally ∧
    (run standIn).1.breach = (run zero).1.breach ∧
    (run standIn).2.bindings = (run zero).2.bindings ∧
    ∀ es : List (Phrase .sum),
      (es.flatMap Phrase.tokens).Sublist (Reading.tokens (Reading.ofText config.names source)) →
      (es.flatMap Phrase.places).Nodup := by
  intro run zero
  let script := Script.ofText config.names source
  obtain ⟨t, t', b', ht, ht', log, rfl⟩ : ∃ t t' b',
      script.drain { config with standIn := zero } (2 * script.size + 2) #[] bindings = (t, b') ∧
      script.drain { config with standIn := standIn } (2 * script.size + 2) #[] bindings =
        (t', b') ∧ Transcript.Relogged t t' :=
    Script.drain_relogged { config with standIn := zero } { config with standIn := standIn } rfl _
      ⟨_, rfl⟩
  have hrun : ∀ (standIn : Span → Number) (t : Transcript),
      script.drain { config with standIn := standIn } (2 * script.size + 2) #[] bindings = (t, b') →
      run standIn = (t, ⟨{ config with standIn := standIn }, b'⟩) := by
    intro standIn t h
    have h : script.run { config with standIn := standIn } bindings = (t, b') := h
    simp only [run, Session.run, script, h]
  rw [hrun zero _ ht, hrun standIn _ ht']
  refine ⟨rfl, rfl, rfl, rfl, rfl, rfl, fun es hes => ?_⟩
  have hstarts := nodup_starts config.names source es hes
  rw [← List.map_flatMap] at hstarts
  exact List.Pairwise.of_map _ (fun p q hne he => hne (congrArg _ he)) hstarts

end LineCalc
