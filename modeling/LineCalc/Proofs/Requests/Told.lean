import LineCalc.Proofs.Requests.Delivery
import Mathlib.Data.List.Induction

/-!
# Which failures are told

What a script tells are the outputs of its statements, and the fatal diagnostics with which they
failed. Every statement that is evaluated for some requests tells its own, one behind the other; and
no other failure is ever told. So a failure is told just as often as a statement fails.
-/

namespace LineCalc

open Grammar Move Script

variable {standIn : Span → Number} {b b' : Bindings} {s t : Script} {w : Workspace}
variable {before after : List Pulled} {e : Diagnostic}

/-- A statement that fails is a turn of the loop, and the last one. -/
theorem Round.of_error (hd : s.Due) (h : Work.statement standIn ⟨s, b⟩ = .error (.fatal e) w) :
    Round standIn b s b (w.script.halt e) :=
  .halt hd (Work.statement_error.mpr (Work.statement_eq_error h))

/-- Behind a turn of the loop a failure waits only if the statement failed. -/
theorem Round.failure_cases (h : Round standIn b s b' t) (hs : s.Sound) :
    t.failure = none ∨ ∃ e w, Work.statement standIn ⟨s, b⟩ = .error (.fatal e) w ∧
      t = w.script.halt e := by
  have hdue := h.due
  cases h with
  | line _ h =>
    obtain ⟨m, p⟩ := hs.exists_progress_of_ok (Work.statement_more.mp h)
    exact .inl (p.failure.trans hdue.failure)
  | finish _ h =>
    obtain ⟨m, p⟩ := hs.exists_progress_of_ok (Work.statement_finished.mp h)
    exact .inl (p.failure.trans hdue.failure)
  | halt _ h => exact .inr ⟨_, _, h, rfl⟩

/-! ### What was told stays told -/

theorem Rounds.told_prefix (h : Rounds standIn b s b' t) (hs : s.Sound) : s.told <+: t.told :=
  h.induct (P := fun _ t => s.told <+: t.told) hs
    (fun hs hr hp => hp.trans ⟨_, (Dialogue.told_round hs hr).symm⟩) (List.prefix_refl _)

theorem Script.told_handOver (s : Script) : s.handOver.2.told = s.told := by
  obtain ⟨queue, failure, h⟩ := s.exists_handOver_eq
  rw [h]
  rfl

namespace Dialogue

variable {d : Dialogue} {q : Request} {qs : List Request}

/-- To recover tells outputs only. -/
theorem exists_told_recover (hs : d.script.Sound) :
    ∃ new : List Output,
      (d.answer .recover).2.script.told = d.script.told ++ new.map .output := by
  rcases answer_recover_cases hs with hr | ⟨-, -, body, rest, stop, -, -, -, hr⟩
  · exact ⟨[], by rw [hr]; exact (List.append_nil _).symm⟩
  · obtain ⟨new, ht, -⟩ := tells_acts (plain_skipMoves body stop) d.script.pardoned
    exact ⟨new, by rw [hr]; exact ht⟩

theorem told_prefix_answer (hs : d.script.Sound) (q : Request) :
    d.script.told <+: (d.answer q).2.script.told := by
  cases q with
  | next =>
    obtain ⟨b', t, hr, -, ha⟩ := exists_rounds_answer hs
    rw [ha]
    exact t.told_handOver ▸ hr.told_prefix hs
  | recover =>
    obtain ⟨new, ht⟩ := exists_told_recover hs
    exact ⟨_, ht.symm⟩

theorem told_prefix_serve (hs : d.script.Sound) (qs : List Request) :
    d.script.told <+: (d.serve qs).2.script.told := by
  induction qs generalizing d with
  | nil => exact List.prefix_refl _
  | cons q qs ih => exact (told_prefix_answer hs q).trans (ih (sound_answer hs q))

/-! ### Every failure of a statement is told -/

/-- A statement that fails tells what it has put out, and then its fatal diagnostic. -/
theorem told_of_meets (hs : d.script.Sound) (h : d.Meets qs b s)
    (he : Work.statement (fun _ => .int 0) ⟨s, b⟩ = .error (.fatal e) w) :
    s.told ++ w.script.queue.map .output ++ [.failure e] <+: (d.serve qs).2.script.told := by
  obtain ⟨hdue, earlier, ⟨since, rfl⟩, hrounds⟩ := h
  have hs₁ : (d.serve earlier).2.script.Sound := sound_serve hs earlier
  have hround := Round.of_error hdue he
  -- the request is answered when the statement has failed, and later ones only add to what is told
  have ha := answer_next_of_rounds hs₁ (hrounds.concat hround) (not_due_of_halted rfl)
  have htold : (w.script.halt e).told = s.told ++ w.script.queue.map .output ++ [.failure e] := by
    rw [told_round (hrounds.sound hs₁) hround, List.append_assoc]
    rfl
  have hanswered : (d.serve (earlier ++ [.next])).2.script.told = (w.script.halt e).told := by
    rw [serve_concat, ha]
    exact told_handOver _
  rw [← htold, ← hanswered, serve_append d _ since]
  exact told_prefix_serve (sound_serve hs _) since

/-! ### Nothing else is told to be fatal -/

theorem Meets.append (h : d.Meets qs b s) (qs' : List Request) : d.Meets (qs ++ qs') b s := by
  obtain ⟨hdue, earlier, hp, hr⟩ := h
  exact ⟨hdue, earlier, hp.trans (List.prefix_append _ _), hr⟩

/-- All failures that `s` has told are those of statements that were evaluated for the requests `qs`,
told behind what these statements put out. -/
def Justified (d : Dialogue) (qs : List Request) (s : Script) : Prop :=
  ∀ before e after, s.told = before ++ .failure e :: after → ∃ b s' w, d.Meets qs b s' ∧
    Work.statement (fun _ => .int 0) ⟨s', b⟩ = .error (.fatal e) w ∧
    before = s'.told ++ w.script.queue.map .output

/-- A failure that is told before some outputs was told without them. -/
theorem exists_of_append_map_output {told : List Pulled} {new : List Output}
    (h : told ++ new.map .output = before ++ .failure e :: after) :
    ∃ after', told = before ++ .failure e :: after' := by
  have hnone : ∀ front rest, new.map Pulled.output ≠ front ++ .failure e :: rest := by
    intro front rest hn
    have hmem : Pulled.failure e ∈ new.map Pulled.output := by simp [hn]
    obtain ⟨o, -, ho⟩ := List.mem_map.mp hmem
    cases ho
  rcases List.append_eq_append_iff.mp h with ⟨front, -, hn⟩ | ⟨back, ht, hb⟩
  · exact absurd hn (hnone front after)
  · cases back with
    | nil => exact absurd hb.symm (hnone [] after)
    | cons p back =>
      obtain ⟨rfl, -⟩ := List.cons.inj hb
      exact ⟨back, ht⟩

theorem Justified.of_outputs {new : List Output} (h : d.Justified qs s)
    (ht : t.told = s.told ++ new.map .output) : d.Justified qs t := by
  intro before e after he
  obtain ⟨after', he'⟩ := exists_of_append_map_output (ht.symm.trans he)
  exact h before e after' he'

theorem Justified.round (h : d.Justified qs s) (hs : s.Sound) (hm : d.Meets qs b s)
    (hr : Round (fun _ => .int 0) b s b' t) : d.Justified qs t := by
  have htold := told_round hs hr
  rcases hr.failure_cases hs with hf | ⟨x, w, hw, rfl⟩
  · rw [waiting, hf, Option.toList_none, List.map_nil, List.append_nil] at htold
    exact h.of_outputs htold
  · intro before e after he
    rw [htold] at he
    -- the failure that was told last is that of this statement, and all others were told before it
    rcases List.eq_nil_or_concat after with rfl | ⟨after', p, rfl⟩
    · have hlast : (s.told ++ w.script.queue.map .output) ++ [.failure x] = before ++ [.failure e] := by
        rw [List.append_assoc]
        exact he
      obtain ⟨rfl, hx⟩ := List.append_inj' hlast rfl
      obtain rfl := Pulled.failure.inj (List.singleton_inj.mp hx)
      exact ⟨b, s, w, hm, hw, rfl⟩
    · have hlast : (s.told ++ w.script.queue.map .output) ++ [.failure x] =
          (before ++ .failure e :: after') ++ [p] := by
        rw [List.append_assoc, List.append_assoc]
        rw [List.concat_eq_append] at he
        exact he
      obtain ⟨hfront, -⟩ := List.append_inj' hlast rfl
      obtain ⟨after'', hs'⟩ := exists_of_append_map_output hfront
      exact h before e after'' hs'

theorem Justified.rounds (h : d.Justified (qs ++ [.next]) s) (hs : s.Sound)
    (hpre : Rounds (fun _ => .int 0) (d.serve qs).2.bindings (d.serve qs).2.script b s)
    (hr : Rounds (fun _ => .int 0) b s b' t) : d.Justified (qs ++ [.next]) t := by
  induction hr with
  | refl => exact h
  | step hround _ ih =>
    have hmeets : d.Meets (qs ++ [.next]) _ _ := ⟨hround.due, qs, List.prefix_refl _, hpre⟩
    exact ih (h.round hs hmeets hround) (hround.sound hs) (hpre.concat hround)

theorem justified_serve (hs : d.script.Sound) (hd : ∀ e, .failure e ∉ d.script.told)
    (qs : List Request) : d.Justified qs (d.serve qs).2.script := by
  induction qs using List.reverseRecOn with
  | nil =>
    intro before e after he
    exact absurd (show .failure e ∈ d.script.told by rw [show d.script.told = _ from he]; simp) (hd e)
  | append_singleton qs q ih =>
    have hs₁ : (d.serve qs).2.script.Sound := sound_serve hs qs
    have hlonger : d.Justified (qs ++ [q]) (d.serve qs).2.script := by
      intro before e after he
      obtain ⟨b, s', w, hm, hw, hb⟩ := ih before e after he
      exact ⟨b, s', w, hm.append [q], hw, hb⟩
    rw [serve_concat]
    cases q with
    | next =>
      obtain ⟨b', t, hr, -, ha⟩ := exists_rounds_answer hs₁
      rw [ha]
      have ht := hlonger.rounds hs₁ (.refl _ _) hr
      have htold : t.handOver.2.told = t.told ++ ([] : List Output).map .output := by
        rw [told_handOver, List.map_nil, List.append_nil]
      exact ht.of_outputs htold
    | recover =>
      obtain ⟨new, ht⟩ := exists_told_recover hs₁
      exact hlonger.of_outputs ht

end Dialogue

end LineCalc
