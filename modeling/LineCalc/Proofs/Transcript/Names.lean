import LineCalc.Proofs.Assignments
import LineCalc.Proofs.Grammar.Mentions
import LineCalc.Proofs.Transcript.Totals

/-!
# A run and the names that it mentions

The bindings matter to a run only for the names that the text mentions, and a run changes only those.
All that happens to the bindings is that assignments are made, one after the other, and the log tells
which. So runs that put out the same and log the same change their bindings alike.
-/

namespace LineCalc

open Grammar Move

variable {standIn : Span → Number} {b b₁ b₂ b' : Bindings} {s t : Script} {c c' : Bool}
variable {os : List Output} {names : List String} {stores : List (String × Number)}

/-! ### What assignments change -/

namespace Bindings

/-- Bindings that agree do so behind the same assignments. -/
theorem AgreeOn.setAll (h : b₁.AgreeOn names b₂) (stores : List (String × Number)) :
    (b₁.setAll stores).AgreeOn names (b₂.setAll stores) := by
  induction stores generalizing b₁ b₂ with
  | nil => exact h
  | cons e stores ih =>
    refine ih fun name hn => ?_
    rw [get?_set, get?_set, h name hn]

/-- How the bindings `b'` come from `b` in a run of a text that mentions `names`, where the assignments
`stores` are made. -/
structure Changes (names : List String) (stores : List (String × Number)) (b b' : Bindings) :
    Prop where
  /-- The assignments are all that is done to the bindings. -/
  eq_setAll : b' = b.setAll stores
  /-- Only names that are mentioned are assigned. -/
  mentioned : ∀ e ∈ stores, e.1 ∈ names
  /-- The others have the values that they had, or none. -/
  others : ∀ name, name ∉ names → b'.get? name = b.get? name
  /-- Their entries are the same, in the same order. -/
  entries : b'.entries.filter (fun e => e.1 ∉ names) = b.entries.filter (fun e => e.1 ∉ names)
  /-- No name loses its value. -/
  kept : ∀ name, (b.get? name).isSome → (b'.get? name).isSome
  /-- The names that were there keep their places, and new ones come behind them, in the order of
  their first assignments. -/
  order : b'.names = b.names ++ ((stores.map (·.1)).filter (· ∉ b.names)).eraseDups

theorem changes_setAll (h : ∀ e ∈ stores, e.1 ∈ names) : Changes names stores b (b.setAll stores) where
  eq_setAll := rfl
  mentioned := h
  others name hn := get?_setAll fun e he heq => hn (heq ▸ h e he)
  entries := filter_setAll (p := fun name => decide (name ∉ names)) fun e he => by simpa using h e he
  kept name := isSome_get?_setAll stores
  order := names_setAll b stores

end Bindings

/-! ### What a row assigns -/

namespace Grammar

variable {rest : List Token}

theorem Content.bindings_eq (scope : Scope) (k : Content) :
    k.bindings scope = scope.bindings.setAll (Move.noted Event.stored? (k.verdict scope)) := by
  unfold bindings verdict
  cases (k.faults scope).head? with
  | some d => rfl
  | none => cases k.deed scope <;> rfl

/-- The bindings behind a line are those in front of it, with the assignment that is noted. -/
theorem Line.eq_setAll_of_result {scope : Scope} {l : Line} (h : l.result scope = some b') :
    b' = scope.bindings.setAll (Move.noted Event.stored? (l.moves scope)) := by
  rw [l.noted_stored?]
  cases l with
  | blank stop =>
    rw [result] at h
    split at h
    · exact (Option.some.inj h).symm
    · cases h
  | full k stop =>
    obtain rfl := Option.some.inj h
    exact k.bindings_eq scope

theorem Line.isSome_result (scope scope' : Scope) (l : Line) :
    (l.result scope).isSome = (l.result scope').isSome := by
  cases l with
  | blank stop =>
    rw [result, result]
    split <;> rfl
  | full k stop => rfl

/-- What a line assigns, it mentions. -/
theorem Line.mem_mentions_of_noted (scope : Scope) (l : Line) :
    ∀ e ∈ Move.noted Event.stored? (l.moves scope), e.1 ∈ mentions l.tokens := by
  rw [l.noted_stored?]
  intro e he
  cases l with
  | blank stop => cases he
  | full k stop =>
    rw [verdict, Content.verdict] at he
    cases hf : (k.faults scope).head? with
    | some d =>
      rw [hf] at he
      cases he
    | none =>
      rw [hf] at he
      cases k with
      | remark r => cases he
      | expression lead e r? =>
        cases lead with
        | print => cases he
        | store m equals =>
          obtain rfl := List.mem_singleton.mp he
          exact m.mem_mentions (by simp [tokens, Content.tokens, Lead.tokens])

end Grammar

/-! ### Runs -/

/-- Behind a row no token is ahead that was not ahead in front of it. -/
theorem Passes.ahead_subset (h : Passes c standIn b s os b' t) (hs : s.Sound) (hr : s.Ready) :
    t.ahead ⊆ s.ahead := by
  obtain ⟨row, rest, ha, hrow⟩ := hs.exists_row
  rcases h.row_cases hs hr.finished ha hrow with
    ⟨l, hl, rfl, -, -, rfl⟩ | ⟨-, rfl, x, body, stop, hx, rfl, he, hb, -, rfl⟩
  · rw [(l.progress ⟨b, standIn⟩ hl ha hs.room).ahead]
    exact List.subset_append_right _ _
  · rw [(x.progress ⟨b', standIn⟩ hx ha hs.room).ahead]
    refine List.Subset.trans ?_ (List.subset_append_right _ _)
    have hskip := (x.progress_skip ⟨b', standIn⟩ hx ha hs.room stop he hb).ahead
    exact fun k hk => hskip ▸ List.mem_append_right _ hk

theorem Ends.noted_stored? (h : Ends c standIn b s os c' t) (hs : s.Sound) :
    t.noted Event.stored? = s.noted Event.stored? := by
  obtain ⟨row, rest, ha, hrow⟩ := hs.exists_row
  rcases h.row_cases hs ha hrow with
    ⟨-, l, hl, -, hresult, -, rfl⟩ | ⟨-, -, x, hx, -, -, rfl⟩
  · have hfinish : ((s.acts (l.moves ⟨b, standIn⟩)).finish.flushed).noted Event.stored? =
        (s.acts (l.moves ⟨b, standIn⟩)).noted Event.stored? := rfl
    rw [hfinish, Script.noted_acts Event.inner_stored?, l.moves_of_result hresult]
    exact List.append_nil _
  · exact x.noted_stored?_failed _ s

/-- What happens to the bindings while a row is passed: the assignments that are logged are made, to
names that are mentioned. -/
theorem Passes.exists_stores (h : Passes c standIn b s os b' t) (hs : s.Sound) (hr : s.Ready) :
    ∃ stores, t.noted Event.stored? = s.noted Event.stored? ++ stores ∧ b' = b.setAll stores ∧
      ∀ e ∈ stores, e.1 ∈ mentions s.ahead := by
  obtain ⟨row, rest, ha, hrow⟩ := hs.exists_row
  rcases h.row_cases hs hr.finished ha hrow with
    ⟨l, hl, rfl, hresult, -, rfl⟩ | ⟨-, rfl, x, body, stop, hx, rfl, he, hb, -, rfl⟩
  · refine ⟨_, Script.noted_acts Event.inner_stored? s (l.moves ⟨b, standIn⟩),
      l.eq_setAll_of_result hresult, fun e he => ?_⟩
    rw [ha]
    exact mentions_subset (List.subset_append_left _ _) (l.mem_mentions_of_noted _ e he)
  · refine ⟨[], ?_, rfl, by simp⟩
    rw [List.append_nil]
    exact (x.noted_stored?_skipped _ s body stop).trans (x.noted_stored?_failed _ s)

/-- With bindings that agree on the names ahead the same row is passed in the same way. -/
theorem Passes.exists_of_agreeOn (h : Passes c standIn b₁ s os b' t) (hs : s.Sound) (hr : s.Ready)
    (hagree : b₁.AgreeOn (mentions s.ahead) b₂) : ∃ b'', Passes c standIn b₂ s os b'' t := by
  obtain ⟨row, rest, ha, hrow⟩ := hs.exists_row
  have hrowAgree : b₁.AgreeOn (mentions row) b₂ := hagree.of_subset (ha ▸ List.subset_append_left _ _)
  rcases h.row_cases hs hr.finished ha hrow with
    ⟨l, hl, rfl, hresult, rfl, rfl⟩ | ⟨rfl, -, x, body, stop, hx, rfl, he, hb, rfl, rfl⟩
  · have hsome : (l.result ⟨b₂, standIn⟩).isSome := by
      rw [l.isSome_result _ ⟨b₁, standIn⟩, hresult]
      rfl
    obtain ⟨b'', hb''⟩ := Option.isSome_iff_exists.mp hsome
    rw [l.moves_congr standIn hrowAgree]
    exact ⟨b'', .of_line c l hl ha hs.room hb''⟩
  · rw [Script.skipped, x.moves_congr standIn hrowAgree]
    exact ⟨b₂, .of_slip x hx ha hs.room hr.finished stop he hb⟩

theorem Ends.of_agreeOn (h : Ends c standIn b₁ s os c' t) (hs : s.Sound)
    (hagree : b₁.AgreeOn (mentions s.ahead) b₂) : Ends c standIn b₂ s os c' t := by
  obtain ⟨row, rest, ha, hrow⟩ := hs.exists_row
  have hrowAgree : b₁.AgreeOn (mentions row) b₂ := hagree.of_subset (ha ▸ List.subset_append_left _ _)
  rcases h.row_cases hs ha hrow with
    ⟨rfl, l, hl, rfl, hresult, rfl, rfl⟩ | ⟨rfl, rfl, x, hx, rfl, rfl, rfl⟩
  · have hnone : l.result ⟨b₂, standIn⟩ = none := by
      rw [← Option.isNone_iff_eq_none, ← Option.not_isSome, l.isSome_result _ ⟨b₁, standIn⟩, hresult]
      rfl
    rw [l.moves_congr standIn hrowAgree]
    exact .of_line c l hl ha hs.room hnone
  · rw [x.moves_congr standIn hrowAgree]
    exact .of_slip x hx ha hs.room

/-- What happens to the bindings in a whole run. -/
theorem Runs.exists_stores (h : Runs c standIn b s os c' b' t) (hs : s.Sound) (hr : s.Ready) :
    ∃ stores, t.noted Event.stored? = s.noted Event.stored? ++ stores ∧ b' = b.setAll stores ∧
      ∀ e ∈ stores, e.1 ∈ mentions s.ahead := by
  induction h with
  | last h =>
    refine ⟨[], ?_, rfl, by simp⟩
    rw [List.append_nil]
    exact h.noted_stored? hs
  | pass h rest ih =>
    obtain ⟨hs₁, hr₁⟩ := h.ready hs hr
    have hahead := h.ahead_subset hs hr
    obtain ⟨stores, hnoted, rfl, hmem⟩ := h.exists_stores hs hr
    obtain ⟨stores', hnoted', rfl, hmem'⟩ := ih hs₁ hr₁
    refine ⟨stores ++ stores', ?_, (Bindings.setAll_append ..).symm, ?_⟩
    · rw [hnoted', hnoted, List.append_assoc]
    · rw [List.forall_mem_append]
      exact ⟨hmem, fun e he => mentions_subset hahead (hmem' e he)⟩

/-- With bindings that agree on the names ahead there is the same run. -/
theorem Runs.exists_of_agreeOn (h : Runs c standIn b₁ s os c' b' t) (hs : s.Sound) (hr : s.Ready)
    (hagree : b₁.AgreeOn (mentions s.ahead) b₂) : ∃ b'', Runs c standIn b₂ s os c' b'' t := by
  induction h generalizing b₂ with
  | last h => exact ⟨b₂, .last (h.of_agreeOn hs hagree)⟩
  | pass h rest ih =>
    obtain ⟨hs₁, hr₁⟩ := h.ready hs hr
    obtain ⟨b'', h₂⟩ := h.exists_of_agreeOn hs hr hagree
    -- the log tells that both make the same assignments
    have hahead := h.ahead_subset hs hr
    obtain ⟨stores, hnoted, rfl, -⟩ := h.exists_stores hs hr
    obtain ⟨stores', hnoted', rfl, -⟩ := h₂.exists_stores hs hr
    obtain rfl : stores = stores' := List.append_cancel_left (hnoted.symm.trans hnoted')
    obtain ⟨b₃, hrest⟩ := ih hs₁ hr₁ ((hagree.of_subset hahead).setAll stores)
    exact ⟨b₃, .pass h₂ hrest⟩

/-- What happens to the bindings when a session runs a text: the assignments in the log are made, to
names that the text mentions. -/
theorem Session.exists_stores (config : Config) (b : Bindings) (source : String) :
    ∃ stores, (Session.run ⟨config, b⟩ source).1.log.filterMap Event.stored? = stores ∧
      (Session.run ⟨config, b⟩ source).2.bindings = b.setAll stores ∧
      ∀ e ∈ stores, e.1 ∈ mentions (Reading.tokens (Reading.ofText config.names source)) := by
  obtain ⟨os, c, b', t, h, hrun⟩ := Session.exists_run_eq config b source
  obtain ⟨stores, hnoted, rfl, hmem⟩ := h.exists_stores (Script.sound_ofText config.names source)
    (Script.ready_ofText config.names source)
  rw [hrun]
  exact ⟨stores, (Transcript.filterMap_log Event.inner_stored? ..).trans hnoted, rfl, hmem⟩

/-- **A run depends on the names it mentions, and changes no others.** From bindings that agree on the
names of the text a session makes the same transcript, and the bindings agree afterwards. Whatever the
bindings are, the assignments in the log are all that happens to them: names that are not mentioned are
left as they are, none loses its value, and new names come behind the others in the order of their
first assignments. -/
theorem Session.run_agreeOn (config : Config) (source : String) (b₁ b₂ : Bindings)
    (hagree : b₁.AgreeOn (mentions (Reading.tokens (Reading.ofText config.names source))) b₂) :
    let names := mentions (Reading.tokens (Reading.ofText config.names source))
    let run := fun b => Session.run ⟨config, b⟩ source
    (run b₁).1 = (run b₂).1 ∧ (run b₁).2.bindings.AgreeOn names (run b₂).2.bindings ∧
      ∀ b, Bindings.Changes names ((run b).1.log.filterMap Event.stored?) b (run b).2.bindings := by
  intro names run
  have hs := Script.sound_ofText config.names source
  have hr := Script.ready_ofText config.names source
  have hchanges : ∀ b, Bindings.Changes names ((run b).1.log.filterMap Event.stored?) b
      (run b).2.bindings := by
    intro b
    obtain ⟨stores, hstores, hbindings, hmem⟩ := Session.exists_stores config b source
    show Bindings.Changes names ((Session.run ⟨config, b⟩ source).1.log.filterMap _) b
      (Session.run ⟨config, b⟩ source).2.bindings
    rw [hstores, hbindings]
    exact Bindings.changes_setAll hmem
  have hsame : (run b₁).1 = (run b₂).1 := by
    obtain ⟨os, c, b', t, h, hrun⟩ := Session.exists_run_eq config b₁ source
    obtain ⟨b'', h₂⟩ := h.exists_of_agreeOn hs hr hagree
    have h₁ : run b₁ = _ := hrun
    have h₂ : run b₂ = _ := Session.run_eq_of_runs h₂
    rw [h₁, h₂]
  refine ⟨hsame, ?_, hchanges⟩
  rw [(hchanges b₁).eq_setAll, (hchanges b₂).eq_setAll, hsame]
  exact hagree.setAll _

/-- Bindings in another order, which differ in a name that the text does not mention. The second line
breaks off, and the third one assigns nothing. -/
theorem Session.run_agreeOn_reordered :
    let config : Config := { names := .free, keepGoing := true }
    let source := "a = x\nb = z +\nx = a / 0\n"
    let b₁ : Bindings := ⟨[("x", .int 2), ("k", .int 5)]⟩
    let b₂ : Bindings := ⟨[("k", .int 7), ("x", .int 2)]⟩
    let names := mentions (Reading.tokens (Reading.ofText .free source))
    let run := fun b => Session.run ⟨config, b⟩ source
    b₁.AgreeOn names b₂ ∧ (run b₁).1 = (run b₂).1 ∧
      (run b₁).2.bindings.AgreeOn names (run b₂).2.bindings ∧
      ∀ b, Bindings.Changes names ((run b).1.log.filterMap Event.stored?) b (run b).2.bindings := by
  intro config source b₁ b₂ names run
  have hnames : mentions (Reading.tokens (Reading.ofText .free "a = x\nb = z +\nx = a / 0\n")) =
      ["a", "x", "b", "z", "x", "a"] := by decide +kernel
  have hagree : b₁.AgreeOn names b₂ := by
    intro name hn
    have hn : name ∈ ["a", "x", "b", "z", "x", "a"] := hnames ▸ hn
    simp only [List.mem_cons, List.not_mem_nil, or_false] at hn
    rcases hn with rfl | rfl | rfl | rfl | rfl | rfl <;> rfl
  exact ⟨hagree, Session.run_agreeOn config source b₁ b₂ hagree⟩

end LineCalc
