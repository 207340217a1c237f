import LineCalc.Proofs.Grammar.Quiet
import LineCalc.Session

/-!
# Where diagnostics stand

The diagnostics of names without a value stand where the names do, and come in the order of the
tokens. The diagnostic of an operation without a value starts where one of its tokens does.
-/

namespace LineCalc

/-- Does the diagnostic tell of a name without a value? -/
def Diagnostic.isUndefined (d : Diagnostic) : Bool :=
  match d.problem with
  | .undefined _ => true
  | _ => false

theorem Diagnostic.isUndefined_of_isLexical {d : Diagnostic} (h : d.isLexical = true) :
    d.isUndefined = false := by
  obtain ⟨problem, span⟩ := d
  cases problem <;> first | rfl | cases h

namespace Output

/-- The places of the diagnostics among outputs. -/
def spots (os : List Output) : List Span := (os.filterMap diagnostic?).map (·.span)

@[simp] theorem spots_nil : spots [] = [] := rfl

@[simp] theorem spots_append (os os' : List Output) : spots (os ++ os') = spots os ++ spots os' := by
  simp [spots]

@[simp] theorem spots_map_diagnostic (ds : List Diagnostic) :
    spots (ds.map .diagnostic) = ds.map (·.span) := by
  rw [spots, List.filterMap_map]
  exact congrArg (List.map _) List.filterMap_some

end Output

namespace Grammar

open Move (outputs)

variable {st : Stratum}

/-! ### Names -/

/-- The names without a value are reported where they stand, in their order. -/
theorem Phrase.unbound_sublist (scope : Scope) (e : Phrase st) :
    ((e.unbound scope).map (·.span)).Sublist (e.tokens.map (·.span)) := by
  induction e with
  | literal l => exact List.nil_sublist _
  | name m =>
    show ((m.unbound scope).map (·.span)).Sublist [m.token.span]
    unfold Mention.unbound
    split
    · exact List.nil_sublist _
    · exact List.Sublist.refl _
  | primary p ih | operand p ih | term p ih => exact ih
  | call f opening arg closing ih =>
    simp only [unbound, tokens, List.map_cons, List.map_append]
    exact ((ih.trans (List.sublist_append_left _ _)).cons _).cons _
  | parenthesis opening inner closing ih =>
    simp only [unbound, tokens, List.map_cons, List.map_append]
    exact (ih.trans (List.sublist_append_left _ _)).cons _
  | sign o u ih => exact ih.cons _
  | product lhs o ho rhs ihl ihr | sum lhs o ho rhs ihl ihr =>
    simp only [unbound, tokens, List.map_cons, List.map_append]
    exact ihl.append (ihr.cons _)

theorem Gap.spots_sublist (scope : Scope) (g : Gap st) :
    (Output.spots (outputs (g.moves scope))).Sublist (g.tokens.map (·.span)) := by
  induction g with
  | here => exact List.nil_sublist _
  | operand g ih | term g ih => exact ih
  | call f opening g ih => exact (ih.cons _).cons _
  | parenthesis opening g ih | sign o g ih => exact ih.cons _
  | product lhs o ho g ih | sum lhs o ho g ih =>
    simp only [moves, tokens, Move.outputs_append, Phrase.outputs_moves, Output.spots_append,
      Output.spots_map_diagnostic, List.map_append, List.map_cons]
    exact (lhs.unbound_sublist scope).append (ih.cons _)

theorem Want.spots_sublist (scope : Scope) (t : Token) (w : Want) :
    (Output.spots (outputs (w.moves scope t))).Sublist (w.tokens.map (·.span)) := by
  cases w with
  | operand =>
    by_cases ht : t.kind = .func ∨ t.kind = .leftParen <;> simp [moves, ht]
  | bracket f => simp [moves]
  | closeCall f opening arg =>
    have harg := arg.unbound_sublist scope
    simp only [moves, tokens, Move.outputs_cons, Move.outputs_append, Phrase.outputs_moves]
    simpa using (harg.cons _).cons _
  | close opening inner =>
    have hinner := inner.unbound_sublist scope
    simp only [moves, tokens, Move.outputs_cons, Move.outputs_append, Phrase.outputs_moves]
    simpa using hinner.cons _

theorem Content.spots_sublist (scope : Scope) (c : Content) :
    (Output.spots (outputs (c.moves scope))).Sublist (c.tokens.map (·.span)) := by
  have hremark : ∀ r?, outputs (Remark.moves r?) = [] := by
    intro r?
    cases r? <;> rfl
  cases c with
  | remark r => exact List.nil_sublist _
  | expression lead e r? =>
    have hout : outputs ((expression lead e r?).moves scope) = (e.unbound scope).map .diagnostic := by
      simp [moves, deedMoves, remark?, hremark]
    rw [hout, Output.spots_map_diagnostic]
    simp only [tokens, List.map_append]
    exact ((e.unbound_sublist scope).trans (List.sublist_append_right _ _)).trans
      (List.sublist_append_left _ _)

/-- What is reported while a line is read stands where its tokens do. -/
theorem Line.spots_sublist (scope : Scope) (l : Line) :
    (Output.spots (outputs (l.reading scope))).Sublist (l.tokens.map (·.span)) := by
  cases l with
  | blank stop => simp [reading]
  | full c stop =>
    have hout : outputs ((full c stop).reading scope) = outputs (c.moves scope) := by
      simp [reading]
    rw [hout, tokens, List.map_append]
    exact (c.spots_sublist scope).trans (List.sublist_append_left _ _)

theorem Slip.spots_sublist (scope : Scope) (x : Slip) :
    (Output.spots (outputs (x.moves scope))).Sublist (x.before.map (·.span)) := by
  cases x with
  | stray lead g w t d after =>
    have hout : outputs ((stray lead g w t d after).moves scope) =
        outputs (g.moves scope) ++ outputs (w.moves scope t) := by
      simp [moves]
    rw [hout, before, Output.spots_append, List.map_append, List.map_append]
    exact ((g.spots_sublist scope).append (w.spots_sublist scope t)).trans
      (List.sublist_append_right _ _)
  | trailing c t after =>
    have hout : outputs ((trailing c t after).moves scope) = outputs (c.moves scope) := by
      simp [moves]
    rw [hout]
    exact c.spots_sublist scope

/-! ### Operations -/

theorem Keyword.start_place (f : Keyword) (closing : Closing) :
    (f.place closing).start = f.token.span.start ∨ (f.place closing).start = closing.1.span.start := by
  show (if _ then _ else _) = _ ∨ (if _ then _ else _) = _
  split
  · exact .inl rfl
  · exact .inr rfl

/-- The places of the operations in an expression, in post-order. -/
def Phrase.places {st : Stratum} : Phrase st → List Span
  | literal _ => []
  | name _ => []
  | call f _ arg closing => arg.places ++ [f.place closing]
  | parenthesis _ inner _ => inner.places
  | primary p => p.places
  | sign o u => u.places ++ [o.token.span]
  | operand u => u.places
  | product lhs o _ rhs => lhs.places ++ rhs.places ++ [o.token.span]
  | term t => t.places
  | sum lhs o _ rhs => lhs.places ++ rhs.places ++ [o.token.span]

theorem map_span_faultOf_sublist (place : Span) (r : Except ArithError Number) :
    ((faultOf place r).map (·.span)).Sublist [place] := by
  cases r with
  | ok value => exact List.nil_sublist _
  | error e => exact List.Sublist.refl _

/-- Faults stand where operations do. -/
theorem Phrase.faults_sublist (scope : Scope) (e : Phrase st) :
    ((e.faults scope).map (·.span)).Sublist e.places := by
  induction e with
  | literal l | name m => exact List.nil_sublist _
  | primary p ih | operand p ih | term p ih => exact ih
  | parenthesis opening inner closing ih => exact ih
  | call f opening arg closing ih | sign o u ih =>
    rw [faults, List.map_append]
    exact ih.append (map_span_faultOf_sublist _ _)
  | product lhs o ho rhs ihl ihr | sum lhs o ho rhs ihl ihr =>
    rw [faults, List.map_append, List.map_append]
    exact (ihl.append ihr).append (map_span_faultOf_sublist _ _)

/-- An operation starts where one of the tokens does. -/
theorem Phrase.starts_subset (e : Phrase st) :
    e.places.map (·.start) ⊆ e.tokens.map (·.span.start) := by
  induction e with
  | literal l | name m => exact List.nil_subset _
  | primary p ih | operand p ih | term p ih => exact ih
  | parenthesis opening inner closing ih =>
    simp only [places, tokens, List.map_cons, List.map_append]
    exact fun p hp => List.mem_cons_of_mem _ (List.mem_append_left _ (ih hp))
  | call f opening arg closing ih =>
    simp only [places, tokens, List.map_cons, List.map_append]
    intro p hp
    rcases List.mem_append.mp hp with hp | hp
    · exact List.mem_cons_of_mem _ (List.mem_cons_of_mem _ (List.mem_append_left _ (ih hp)))
    · obtain rfl := List.mem_singleton.mp hp
      rcases f.start_place closing with hstart | hstart <;> simp [hstart]
  | sign o u ih =>
    simp only [places, tokens, List.map_cons, List.map_append]
    intro p hp
    rcases List.mem_append.mp hp with hp | hp
    · exact List.mem_cons_of_mem _ (ih hp)
    · obtain rfl := List.mem_singleton.mp hp
      exact List.mem_cons_self
  | product lhs o ho rhs ihl ihr | sum lhs o ho rhs ihl ihr =>
    simp only [places, tokens, List.map_cons, List.map_append]
    intro p hp
    rcases List.mem_append.mp hp with hp | hp
    · rcases List.mem_append.mp hp with hp | hp
      · exact List.mem_append_left _ (ihl hp)
      · exact List.mem_append_right _ (List.mem_cons_of_mem _ (ihr hp))
    · obtain rfl := List.mem_singleton.mp hp
      exact List.mem_append_right _ List.mem_cons_self

theorem Phrase.exists_start_of_mem_faults (scope : Scope) (e : Phrase st) {d : Diagnostic}
    (hd : d ∈ e.faults scope) : ∃ t ∈ e.tokens, d.span.start = t.span.start := by
  have hplace : d.span ∈ e.places := (e.faults_sublist scope).subset (List.mem_map_of_mem hd)
  obtain ⟨t, ht, hstart⟩ := List.mem_map.mp (e.starts_subset (List.mem_map_of_mem hplace))
  exact ⟨t, ht, hstart.symm⟩

/-- If no two tokens start together, no two operations do. -/
theorem Phrase.nodup_starts (e : Phrase st) (h : (e.tokens.map (·.span.start)).Nodup) :
    (e.places.map (·.start)).Nodup := by
  induction e with
  | literal l | name m => exact List.nodup_nil
  | primary p ih | operand p ih | term p ih => exact ih h
  | parenthesis opening inner closing ih =>
    simp only [tokens, List.map_cons, List.map_append] at h
    exact ih (List.nodup_append.mp (List.nodup_cons.mp h).2).1
  | call f opening arg closing ih =>
    simp only [tokens, List.map_cons, List.map_append, List.nodup_cons, List.nodup_append] at h
    obtain ⟨hf, -, harg, -, hclosing⟩ := h
    simp only [places, List.map_append, List.map_cons, List.map_nil, List.nodup_append]
    -- a call is blamed at its keyword or at its closing parenthesis, neither of them in the
    -- argument
    refine ⟨ih harg, by simp, fun p hp q hq => ?_⟩
    obtain rfl := List.mem_singleton.mp hq
    have hp := arg.starts_subset hp
    rcases f.start_place closing with hstart | hstart
    · rintro rfl
      rw [hstart] at hp
      exact hf (List.mem_cons_of_mem _ (List.mem_append_left _ hp))
    · rw [hstart]
      exact hclosing p hp _ List.mem_cons_self
  | sign o u ih =>
    simp only [tokens, List.map_cons, List.nodup_cons] at h
    simp only [places, List.map_append, List.map_cons, List.map_nil, List.nodup_append]
    refine ⟨ih h.2, by simp, fun p hp q hq => ?_⟩
    obtain rfl := List.mem_singleton.mp hq
    rintro rfl
    exact h.1 (u.starts_subset hp)
  | product lhs o ho rhs ihl ihr | sum lhs o ho rhs ihl ihr =>
    simp only [tokens, List.map_cons, List.map_append, List.nodup_cons, List.nodup_append] at h
    obtain ⟨hl, ⟨ho, hr⟩, hlr⟩ := h
    simp only [places, List.map_append, List.map_cons, List.map_nil, List.nodup_append]
    -- starts left of the operator, its own, and those right of it
    refine ⟨⟨ihl hl, ihr hr, fun p hp q hq => ?_⟩, by simp, fun p hp q hq => ?_⟩
    · exact hlr p (lhs.starts_subset hp) q (List.mem_cons_of_mem _ (rhs.starts_subset hq))
    · obtain rfl := List.mem_singleton.mp hq
      rcases List.mem_append.mp hp with hp | hp
      · exact hlr p (lhs.starts_subset hp) _ List.mem_cons_self
      · rintro rfl
        exact ho (rhs.starts_subset hp)

theorem Content.exists_start_of_mem_faults (scope : Scope) (c : Content) {d : Diagnostic}
    (hd : d ∈ c.faults scope) : ∃ t ∈ c.tokens, d.span.start = t.span.start := by
  cases c with
  | remark r => cases hd
  | expression lead e r? =>
    obtain ⟨t, ht, hstart⟩ := e.exists_start_of_mem_faults scope hd
    exact ⟨t, by simp [tokens, ht], hstart⟩

end Grammar

end LineCalc
