import LineCalc.Proofs.Grammar.Line

/-!
# Ordinary moves

Between the start of a line and the verdict on it only a few kinds of moves are made: the next token
or the one behind it is looked at, tokens are taken, levels of nesting are entered and left, names
without a value are reported, operations are noted, and blamed if they have no value. These are the
ordinary moves. What holds for each of them holds for all that is done while a line is read, whether
it is complete or not.
-/

namespace LineCalc

/-- A move that is made while the content of a line is read. -/
inductive Move.Ordinary : Move → Prop where
  | first : Ordinary (.look 0)
  /-- Whether a line is an assignment shows in its second token. -/
  | second : Ordinary (.look 1)
  | take (t : Token) : Ordinary (.take t)
  | undefined (name : String) (place : Span) : Ordinary (.report ⟨.undefined name, place⟩)
  | blame (d : Diagnostic) : Ordinary (.blame d)
  | enter : Ordinary .enter
  | leave : Ordinary .leave
  | operation (lhs : Number) (op : BinOp) (rhs : Number) : Ordinary (.note (.operation lhs op rhs))
  | sign (op : UnOp) (operand : Number) : Ordinary (.note (.sign op operand))
  | call (f : Func) (arg : Number) : Ordinary (.note (.call f arg))
  | comment (text : String) : Ordinary (.note (.comment text))

namespace Grammar

open Move (Ordinary)

variable {st : Stratum}

theorem ordinary_map_blame (ds : List Diagnostic) : ∀ x ∈ ds.map Move.blame, x.Ordinary := by
  intro x hx
  obtain ⟨d, -, rfl⟩ := List.mem_map.mp hx
  exact .blame d

theorem Mention.ordinary_unbound (m : Mention) (scope : Scope) :
    ∀ x ∈ (m.unbound scope).map Move.report, x.Ordinary := by
  unfold Mention.unbound
  split
  · intro x hx
    cases hx
  · intro x hx
    obtain rfl := List.mem_singleton.mp hx
    exact .undefined m.name m.token.span

theorem Phrase.ordinary_moves (scope : Scope) (e : Phrase st) :
    ∀ x ∈ e.moves scope, x.Ordinary := by
  -- the moves of a phrase are those of its parts, and single ordinary ones around them
  induction e with
  | literal l =>
    simp only [moves, List.forall_mem_cons]
    exact ⟨.first, .take _, by simp⟩
  | name m =>
    simp only [moves, List.forall_mem_cons]
    exact ⟨.first, .take _, m.ordinary_unbound scope⟩
  | primary p ih =>
    simp only [moves, List.forall_mem_cons]
    exact ⟨.first, ih⟩
  | operand u ih | term t ih => exact ih
  | parenthesis opening inner closing ih =>
    simp only [moves, List.forall_mem_cons, List.forall_mem_append]
    exact ⟨.first, .enter, .take _, ih, .first, .first, .take _, .leave, by simp⟩
  | call f opening arg closing ih =>
    simp only [moves, List.forall_mem_cons, List.forall_mem_append]
    exact ⟨.first, .enter, .take _, .first, .take _, ih, .first, .first, .take _, .leave,
      .call _ _, ordinary_map_blame _⟩
  | sign o u ih =>
    simp only [moves, List.forall_mem_cons, List.forall_mem_append]
    exact ⟨.first, .enter, .take _, ih, .first, .leave, .sign _ _, ordinary_map_blame _⟩
  | product lhs o ho rhs ihl ihr | sum lhs o ho rhs ihl ihr =>
    simp only [moves, List.forall_mem_cons, List.forall_mem_append]
    exact ⟨ihl, .first, .take _, ihr, .first, .operation _ _ _, ordinary_map_blame _⟩

theorem Gap.ordinary_moves (scope : Scope) (g : Gap st) : ∀ x ∈ g.moves scope, x.Ordinary := by
  induction g with
  | here =>
    intro x hx
    cases hx
  | operand g ih | term g ih => exact ih
  | call f opening g ih =>
    simp only [moves, List.forall_mem_cons]
    exact ⟨.first, .first, .enter, .take _, .first, .take _, ih⟩
  | parenthesis opening g ih =>
    simp only [moves, List.forall_mem_cons]
    exact ⟨.first, .first, .enter, .take _, ih⟩
  | sign o g ih =>
    simp only [moves, List.forall_mem_cons]
    exact ⟨.first, .enter, .take _, ih⟩
  | product lhs o ho g ih | sum lhs o ho g ih =>
    simp only [moves, List.forall_mem_cons, List.forall_mem_append]
    exact ⟨lhs.ordinary_moves scope, .first, .take _, ih⟩

theorem Want.ordinary_moves (scope : Scope) (t : Token) (w : Want) :
    ∀ x ∈ w.moves scope t, x.Ordinary := by
  cases w with
  | operand =>
    simp only [moves, List.forall_mem_cons]
    refine ⟨.first, .first, ?_⟩
    split
    · simpa using .first
    · simp
  | bracket f =>
    simp only [moves, List.forall_mem_cons]
    exact ⟨.first, .first, .enter, .take _, .first, by simp⟩
  | closeCall f opening arg =>
    simp only [moves, List.forall_mem_cons, List.forall_mem_append]
    exact ⟨.first, .first, .enter, .take _, .first, .take _, arg.ordinary_moves scope, .first,
      .first, by simp⟩
  | close opening inner =>
    simp only [moves, List.forall_mem_cons, List.forall_mem_append]
    exact ⟨.first, .first, .enter, .take _, inner.ordinary_moves scope, .first, .first, by simp⟩

theorem Lead.ordinary_moves (lead : Lead) : ∀ x ∈ lead.moves, x.Ordinary := by
  cases lead with
  | print => simp [moves]
  | store m equals =>
    simp only [moves, List.forall_mem_cons]
    exact ⟨.take _, .take _, by simp⟩

theorem LineEnd.ordinary_moves (stop : LineEnd) : ∀ x ∈ LineEnd.moves stop, x.Ordinary := by
  unfold moves
  split
  · simp only [List.forall_mem_cons]
    exact ⟨.first, .take _, by simp⟩
  · simpa using .first

theorem Remark.ordinary_moves (r? : Option Remark) : ∀ x ∈ Remark.moves r?, x.Ordinary := by
  cases r? with
  | none => simpa [moves] using .first
  | some r =>
    simp only [moves, List.forall_mem_cons]
    exact ⟨.first, .take _, .comment r.text, by simp⟩

theorem Content.ordinary_moves (scope : Scope) (c : Content) : ∀ x ∈ c.moves scope, x.Ordinary := by
  rw [moves, List.forall_mem_append]
  refine ⟨?_, Remark.ordinary_moves _⟩
  cases c with
  | remark r =>
    simp only [deedMoves, List.forall_mem_cons]
    exact ⟨.first, .second, by simp⟩
  | expression lead e r? =>
    simp only [deedMoves, List.forall_mem_cons, List.forall_mem_append]
    exact ⟨.first, .second, lead.ordinary_moves, e.ordinary_moves scope, .first, by simp⟩

/-- A slip is counted as a statement, and then only ordinary moves are made. -/
theorem Slip.exists_moves_eq (scope : Scope) (x : Slip) :
    ∃ inner, x.moves scope = .clear :: .look 0 :: .count :: inner ∧ ∀ y ∈ inner, y.Ordinary := by
  cases x with
  | stray lead g w t d after =>
    refine ⟨_, rfl, ?_⟩
    simp only [List.forall_mem_cons, List.forall_mem_append]
    exact ⟨.first, .second, lead.ordinary_moves, g.ordinary_moves scope, w.ordinary_moves scope t⟩
  | trailing c t after =>
    refine ⟨_, rfl, ?_⟩
    simp only [List.forall_mem_cons, List.forall_mem_append]
    exact ⟨c.ordinary_moves scope, .first, by simp⟩

end Grammar

end LineCalc
