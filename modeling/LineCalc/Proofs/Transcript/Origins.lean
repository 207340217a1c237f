import LineCalc.Proofs.Transcript.Names

/-!
# Where diagnostics come from

A diagnostic of a run was read, or it tells of one of the tokens: of a name without a value, or of a
token in the wrong place. Only the diagnostics of operations without a value tell of no token. They
come of numbers alone.
-/

namespace LineCalc

open Grammar Move

variable {standIn : Span → Number} {b b' : Bindings} {s s' t : Script}
variable {c c' : Bool} {os : List Output} {rest : List Token} {d : Diagnostic}

/-! ### Names without a value -/

/-- The diagnostic tells that a name among the tokens has no value. -/
def Diagnostic.TellsOfName (d : Diagnostic) (toks : List Token) : Prop :=
  ∃ m : Mention, m.token ∈ toks ∧ d = ⟨.undefined m.name, m.token.span⟩

theorem Diagnostic.TellsOfName.mono {toks toks' : List Token} (h : d.TellsOfName toks)
    (hsub : toks ⊆ toks') : d.TellsOfName toks' := by
  obtain ⟨m, hm, hd⟩ := h
  exact ⟨m, hsub hm, hd⟩

namespace Grammar

variable {st : Stratum}

theorem Phrase.tellsOfName (scope : Scope) (e : Phrase st) (hd : d ∈ e.unbound scope) :
    d.TellsOfName e.tokens := by
  induction e with
  | literal l => cases hd
  | name m =>
    have hd : d ∈ m.unbound scope := hd
    unfold Mention.unbound at hd
    split at hd
    · cases hd
    · exact ⟨m, List.mem_singleton_self _, List.mem_singleton.mp hd⟩
  | primary p ih | operand p ih | term p ih => exact ih hd
  | call f opening arg closing ih | parenthesis opening arg closing ih | sign o arg ih =>
    exact (ih hd).mono fun t ht => by simp [tokens, ht]
  | product lhs o ho rhs ihl ihr | sum lhs o ho rhs ihl ihr =>
    rcases List.mem_append.mp hd with hd | hd
    · exact (ihl hd).mono fun t ht => by simp [tokens, ht]
    · exact (ihr hd).mono fun t ht => by simp [tokens, ht]

theorem Phrase.tellsOfName_of_mem_outputs (scope : Scope) (e : Phrase st)
    (hd : .diagnostic d ∈ outputs (e.moves scope)) : d.TellsOfName e.tokens := by
  rw [outputs_moves] at hd
  obtain ⟨d', hd', he⟩ := List.mem_map.mp hd
  obtain rfl := Output.diagnostic.inj he
  exact e.tellsOfName scope hd'

theorem Gap.tellsOfName (scope : Scope) (g : Gap st)
    (hd : .diagnostic d ∈ outputs (g.moves scope)) : d.TellsOfName g.tokens := by
  induction g with
  | here => cases hd
  | operand g ih | term g ih => exact ih hd
  | call f opening g ih | parenthesis opening g ih | sign o g ih =>
    have hd : .diagnostic d ∈ outputs (g.moves scope) := by simpa [moves] using hd
    exact (ih hd).mono fun t ht => by simp [tokens, ht]
  | product lhs o ho g ih | sum lhs o ho g ih =>
    rw [moves, outputs_append] at hd
    rcases List.mem_append.mp hd with hd | hd
    · exact (lhs.tellsOfName_of_mem_outputs scope hd).mono fun t ht => by simp [tokens, ht]
    · exact (ih hd).mono fun t ht => by simp [tokens, ht]

theorem Want.tellsOfName (scope : Scope) (t : Token) (w : Want)
    (hd : .diagnostic d ∈ outputs (w.moves scope t)) : d.TellsOfName w.tokens := by
  cases w with
  | operand => by_cases ht : t.kind = .func ∨ t.kind = .leftParen <;> simp [moves, ht] at hd
  | bracket f => simp [moves] at hd
  | closeCall f opening e | close opening e =>
    have hd : .diagnostic d ∈ outputs (e.moves scope) := by
      simpa only [moves, outputs_cons, outputs_append, outputs_nil, output?, Option.toList_none,
        List.nil_append, List.append_nil] using hd
    exact (e.tellsOfName_of_mem_outputs scope hd).mono fun t ht => by simp [tokens, ht]

theorem Content.tellsOfName (scope : Scope) (k : Content)
    (hd : .diagnostic d ∈ outputs (k.moves scope)) : d.TellsOfName k.tokens := by
  have hremark : ∀ r?, outputs (Remark.moves r?) = [] := by
    intro r?
    cases r? <;> rfl
  rw [moves, outputs_append, hremark, List.append_nil] at hd
  cases k with
  | remark r => cases hd
  | expression lead e r? =>
    have hd : .diagnostic d ∈ outputs (e.moves scope) := by simpa [deedMoves] using hd
    exact (e.tellsOfName_of_mem_outputs scope hd).mono fun t ht => by simp [tokens, ht]

/-- What is put out while a line is read tells of names on the line. -/
theorem Line.tellsOfName (scope : Scope) (l : Line)
    (hd : .diagnostic d ∈ outputs (l.reading scope)) : d.TellsOfName l.tokens := by
  cases l with
  | blank stop => simp [reading] at hd
  | full k stop =>
    have hd : .diagnostic d ∈ outputs (k.moves scope) := by simpa [reading] using hd
    exact (k.tellsOfName scope hd).mono (List.subset_append_left _ _)

theorem Slip.tellsOfName (scope : Scope) (x : Slip)
    (hd : .diagnostic d ∈ outputs (x.moves scope)) : d.TellsOfName x.tokens := by
  cases x with
  | stray lead g w t e after =>
    have hd : .diagnostic d ∈ outputs (g.moves scope) ++ outputs (w.moves scope t) := by
      simpa [moves] using hd
    rcases List.mem_append.mp hd with hd | hd
    · exact (g.tellsOfName scope hd).mono fun t ht => by simp [tokens, ht]
    · exact (w.tellsOfName scope t hd).mono fun t ht => by simp [tokens, ht]
  | trailing k t after =>
    have hd : .diagnostic d ∈ outputs (k.moves scope) := by simpa [moves] using hd
    exact (k.tellsOfName scope hd).mono (List.subset_append_left _ _)

end Grammar

/-! ### Origins -/

/-- Where a diagnostic comes from that is put out from here on. -/
inductive Script.Origin (s : Script) (d : Diagnostic) : Prop where
  | read (h : d ∈ Reading.diagnostics s.unread)
  | name (h : d.TellsOfName s.ahead)
  | operation (h : d.isArithmetic = true)
  | misplaced (t : Token) (ht : t ∈ s.ahead) (h : d = .nesting t ∨ d = .unexpected t)

/-- Where something comes from later on, there it comes from now. -/
theorem Script.Origin.mono (h : s'.Origin d) (hu : s'.unread <:+ s.unread)
    (ha : s'.ahead ⊆ s.ahead) : s.Origin d := by
  cases h with
  | read h =>
    obtain ⟨read, hu⟩ := hu
    exact .read (by rw [← hu, Reading.diagnostics_append]; exact List.mem_append_right _ h)
  | name h => exact .name (h.mono ha)
  | operation h => exact .operation h
  | misplaced t ht h => exact .misplaced t (ha ht) h

/-- What moves put out they put out themselves, or it was read meanwhile. -/
theorem Progress.mem_diagnostics_or {m : List Move} (p : Progress s m s') (hs : s.Lexical)
    (hq : s.queue = []) (hd : .diagnostic d ∈ s'.queue) :
    d ∈ Reading.diagnostics s.unread ∨ .diagnostic d ∈ outputs m := by
  obtain ⟨read, new, hu, hnew, hlexical, hout⟩ := p.queue hs
  rw [hnew, hq, List.nil_append] at hd
  by_cases hl : Output.isLexical (.diagnostic d) = true
  · left
    have hmem : .diagnostic d ∈ new.filter Output.isLexical := List.mem_filter.mpr ⟨hd, hl⟩
    rw [hlexical] at hmem
    obtain ⟨d', hd', he⟩ := List.mem_map.mp hmem
    obtain rfl := Output.diagnostic.inj he
    rw [hu, Reading.diagnostics_append]
    exact List.mem_append_left _ hd'
  · right
    rw [← hout]
    exact List.mem_filter.mpr ⟨hd, by simpa using hl⟩

theorem Grammar.Line.origin (scope : Scope) (l : Line) (hl : l.height ≤ maxNesting) (hs : s.Sound)
    (hr : s.Ready) (ha : s.ahead = l.tokens ++ rest)
    (hd : .diagnostic d ∈ (s.acts (l.moves scope)).queue) : s.Origin d := by
  rcases (l.progress scope hl ha hs.room).mem_diagnostics_or hs.lexical hr.queue hd with hd | hd
  · exact .read hd
  · rw [l.moves_eq, outputs_append] at hd
    rcases List.mem_append.mp hd with hd | hd
    · exact .name ((l.tellsOfName scope hd).mono (ha ▸ List.subset_append_left _ _))
    · exact .operation (l.isArithmetic_of_mem_verdict scope hd)

theorem Grammar.Slip.origin (scope : Scope) (x : Slip) (hx : x.Fits) (hs : s.Sound)
    (hr : s.Ready) (ha : s.ahead = x.tokens ++ rest) :
    s.Origin x.diagnostic ∧
      ∀ d, .diagnostic d ∈ (s.acts (x.moves scope)).queue → s.Origin d := by
  have hsub : x.tokens ⊆ s.ahead := ha ▸ List.subset_append_left _ _
  constructor
  · exact .misplaced x.token (hsub (by simp [x.tokens_eq])) hx.diagnostic_eq
  · intro d hd
    rcases (x.progress scope hx ha hs.room).mem_diagnostics_or hs.lexical hr.queue hd with hd | hd
    · exact .read hd
    · exact .name ((x.tellsOfName scope hd).mono hsub)

theorem Passes.unread_suffix (h : Passes c standIn b s os b' t) (hs : s.Sound) (hr : s.Ready) :
    t.unread <:+ s.unread := by
  obtain ⟨row, rest, ha, hrow⟩ := hs.exists_row
  rcases h.row_cases hs hr.finished ha hrow with
    ⟨l, hl, rfl, -, -, rfl⟩ | ⟨-, rfl, x, body, stop, hx, rfl, he, hb, -, rfl⟩
  · obtain ⟨read, -, hu, -⟩ := (l.progress ⟨b, standIn⟩ hl ha hs.room).queue hs.lexical
    exact ⟨read, hu.symm⟩
  · obtain ⟨read, -, hu, -⟩ := (x.progress ⟨b', standIn⟩ hx ha hs.room).queue hs.lexical
    obtain ⟨read', hu', -⟩ := x.exists_queue_skipped ⟨b', standIn⟩ hx hs ha he hb
    exact ⟨read ++ read', by rw [List.append_assoc, hu, hu']; rfl⟩

theorem Passes.origin (h : Passes c standIn b s os b' t) (hs : s.Sound) (hr : s.Ready)
    (hd : .diagnostic d ∈ os) : s.Origin d := by
  obtain ⟨row, rest, ha, hrow⟩ := hs.exists_row
  rcases h.row_cases hs hr.finished ha hrow with
    ⟨l, hl, rfl, -, rfl, -⟩ | ⟨-, rfl, x, body, stop, hx, rfl, he, hb, rfl, -⟩
  · exact l.origin _ hl hs hr ha hd
  · obtain ⟨hfatal, hnotices⟩ := x.origin ⟨b', standIn⟩ hx hs hr ha
    rcases List.mem_append.mp hd with hd | hd
    · exact hnotices d hd
    rcases List.mem_cons.mp hd with hd | hd
    · obtain rfl := Output.diagnostic.inj hd
      exact hfatal
    -- what was read while the rest of the row was skipped
    obtain ⟨read, -, hu, -⟩ := (x.progress ⟨b', standIn⟩ hx ha hs.room).queue hs.lexical
    obtain ⟨read', hu', hq, -⟩ := x.exists_queue_skipped ⟨b', standIn⟩ hx hs ha he hb
    rw [hq] at hd
    obtain ⟨d', hd', he'⟩ := List.mem_map.mp hd
    obtain rfl := Output.diagnostic.inj he'
    refine .read ?_
    rw [hu, hu', Reading.diagnostics_append, Reading.diagnostics_append]
    exact List.mem_append_right _ (List.mem_append_left _ hd')

theorem Ends.origin (h : Ends c standIn b s os c' t) (hs : s.Sound) (hr : s.Ready)
    (hd : .diagnostic d ∈ os) : s.Origin d := by
  obtain ⟨row, rest, ha, hrow⟩ := hs.exists_row
  rcases h.row_cases hs ha hrow with ⟨-, l, hl, rfl, -, rfl, -⟩ | ⟨-, -, x, hx, rfl, rfl, -⟩
  · exact l.origin _ hl hs hr ha hd
  · obtain ⟨hfatal, hnotices⟩ := x.origin ⟨b, standIn⟩ hx hs hr ha
    rcases List.mem_append.mp hd with hd | hd
    · exact hnotices d hd
    · obtain rfl := Output.diagnostic.inj (List.mem_singleton.mp hd)
      exact hfatal

/-- Every diagnostic of a run comes from what is still to be read and taken where the run starts. -/
theorem Runs.origin (h : Runs c standIn b s os c' b' t) (hs : s.Sound) (hr : s.Ready)
    (hd : .diagnostic d ∈ os) : s.Origin d := by
  induction h with
  | last h => exact h.origin hs hr hd
  | pass h rest ih =>
    rcases List.mem_append.mp hd with hd | hd
    · exact h.origin hs hr hd
    · obtain ⟨hs₁, hr₁⟩ := h.ready hs hr
      exact (ih hs₁ hr₁ hd).mono (h.unread_suffix hs hr) (h.ahead_subset hs hr)

end LineCalc
