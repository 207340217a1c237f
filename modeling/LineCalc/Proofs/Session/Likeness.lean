import LineCalc.Proofs.Evaluation.Likeness
import LineCalc.Proofs.Session.Runs

/-!
# Runs that are alike

Scripts that are alike have runs that are alike: row by row the same is put out, and the bindings are the
same.
-/

namespace LineCalc

variable {ℓ : Likeness} {standIn : Span → Number} {b b' : Bindings} {s s' t : Script}
variable {c c' : Bool} {os : List Output}

namespace Script.Like

theorem flushed (h : s.Like ℓ s') : s.flushed.Like ℓ s'.flushed := { h with queue := .nil }

theorem halt (h : s.Like ℓ s') {d d' : Diagnostic} (hd : d.Like ℓ.place d') :
    (s.halt d).Like ℓ (s'.halt d') :=
  { h.logged (show (Event.halted d').stored? = (Event.halted d).stored? from rfl) with
    halted := rfl
    failure := .some hd }

theorem failed (h : s.Like ℓ s') {d d' : Diagnostic} (hd : d.Like ℓ.place d') :
    (s.failed d).Like ℓ (s'.failed d') :=
  { h.halt hd with
    queue := .nil
    failure := .none }

theorem finish (h : s.Like ℓ s') : s.finish.Like ℓ s'.finish :=
  { h with
    halted := rfl
    finished := rfl }

end Script.Like

theorem Passes.like (hi : ∀ p p', ℓ.place p p' → standIn p' = standIn p) (h : s.Like ℓ s')
    (hp : Passes c standIn b s os b' t) : ∃ os' t', Passes c standIn b s' os' b' t' ∧
      List.Forall₂ (Output.Like ℓ.place) os os' ∧ t.Like ℓ t' := by
  have hpar : Parallel ℓ Eq (Eval.statement ⟨b, standIn⟩) (Eval.statement ⟨b, standIn⟩) :=
    .statement hi
  have hst := hpar s s' h
  cases hp with
  | line hp =>
    rw [Work.statement_more.mp hp] at hst
    obtain ⟨_, t', ht, rfl, hlike⟩ := hst
    exact ⟨_, _, .line (Work.statement_more.mpr ht), hlike.queue, hlike.flushed⟩
  | skip hk hp hr =>
    rw [Work.statement_error.mp hp] at hst
    obtain ⟨d', t', ht, hd, hlike⟩ := hst
    obtain ⟨u', hu, hlike'⟩ := Feed.recover_like (hlike.failed hd) hr
    exact ⟨_, _, .skip hk (Work.statement_error.mpr ht) hu,
      List.rel_append hlike.queue (.cons (.diagnostic hd) hlike'.queue),
      hlike'.flushed⟩

theorem Ends.like (hi : ∀ p p', ℓ.place p p' → standIn p' = standIn p) (h : s.Like ℓ s')
    (he : Ends c standIn b s os c' t) : ∃ os' t', Ends c standIn b s' os' c' t' ∧
      List.Forall₂ (Output.Like ℓ.place) os os' ∧ t.Like ℓ t' := by
  have hpar : Parallel ℓ Eq (Eval.statement ⟨b, standIn⟩) (Eval.statement ⟨b, standIn⟩) :=
    .statement hi
  have hst := hpar s s' h
  cases he with
  | done he =>
    rw [Work.statement_finished.mp he] at hst
    obtain ⟨_, t', ht, rfl, hlike⟩ := hst
    exact ⟨_, _, .done (Work.statement_finished.mpr ht), hlike.queue, hlike.finish.flushed⟩
  | stop hk he =>
    rw [Work.statement_error.mp he] at hst
    obtain ⟨d', t', ht, hd, hlike⟩ := hst
    exact ⟨_, _, .stop hk (Work.statement_error.mpr ht),
      List.rel_append hlike.queue (.cons (.diagnostic hd) .nil),
      hlike.failed hd⟩

theorem Runs.like (hi : ∀ p p', ℓ.place p p' → standIn p' = standIn p) (h : s.Like ℓ s')
    (hr : Runs c standIn b s os c' b' t) : ∃ os' t', Runs c standIn b s' os' c' b' t' ∧
      List.Forall₂ (Output.Like ℓ.place) os os' ∧ t.Like ℓ t' := by
  induction hr generalizing s' with
  | last he =>
    obtain ⟨os', t', he', hos, hlike⟩ := he.like hi h
    exact ⟨os', t', .last he', hos, hlike⟩
  | pass hp _ ih =>
    obtain ⟨os₁, s₁, hp', hos, hlike⟩ := hp.like hi h
    obtain ⟨os₂, t', hr', hos', hlike'⟩ := ih hlike
    exact ⟨_, t', .pass hp' hr', List.rel_append hos hos', hlike'⟩

end LineCalc
