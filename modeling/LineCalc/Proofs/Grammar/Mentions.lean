import LineCalc.Proofs.Grammar.Quiet

/-!
# The names that are mentioned

The bindings matter to a line only for the names that it mentions. Where two bindings give the same
values to these names, or leave them without a value, evaluating the line makes the same moves.
-/

namespace LineCalc

/-- The name that a token is, if it is one. -/
def Token.name? (t : Token) : Option String :=
  match t.kind, t.payload with
  | .ident, .ident name => some name
  | _, _ => none

/-- The names that tokens mention, in their order. -/
def mentions (toks : List Token) : List String := toks.filterMap Token.name?

theorem mentions_subset {toks toks' : List Token} (h : toks' ⊆ toks) :
    mentions toks' ⊆ mentions toks := by
  intro name hn
  obtain ⟨t, ht, hname⟩ := List.mem_filterMap.mp hn
  exact List.mem_filterMap.mpr ⟨t, h ht, hname⟩

/-- Both give the same values to the names, or leave them without a value. -/
def Bindings.AgreeOn (names : List String) (b₁ b₂ : Bindings) : Prop :=
  ∀ name ∈ names, b₁.get? name = b₂.get? name

theorem Bindings.AgreeOn.of_subset {toks toks' : List Token} {b₁ b₂ : Bindings}
    (h : b₁.AgreeOn (mentions toks) b₂) (hsub : toks' ⊆ toks) : b₁.AgreeOn (mentions toks') b₂ :=
  fun name hn => h name (mentions_subset hsub hn)

theorem Scope.settled_congr (b₁ b₂ : Bindings) (standIn : Span → Number) (place : Span)
    (r : Except ArithError Number) :
    Scope.settled ⟨b₁, standIn⟩ place r = Scope.settled ⟨b₂, standIn⟩ place r := rfl

namespace Grammar

variable {st : Stratum} {b₁ b₂ : Bindings} {standIn : Span → Number}

theorem Mention.name?_token (m : Mention) : m.token.name? = some m.name := by
  simp [Token.name?, m.isIdent, m.payload]

theorem Mention.mem_mentions (m : Mention) {toks : List Token} (h : m.token ∈ toks) :
    m.name ∈ mentions toks :=
  List.mem_filterMap.mpr ⟨m.token, h, m.name?_token⟩

/-! ### Expressions -/

/-- An expression is evaluated in the same way with both bindings. -/
structure Phrase.Alike (standIn : Span → Number) (b₁ b₂ : Bindings) (e : Phrase st) : Prop where
  value : e.value ⟨b₁, standIn⟩ = e.value ⟨b₂, standIn⟩
  faults : e.faults ⟨b₁, standIn⟩ = e.faults ⟨b₂, standIn⟩
  moves : e.moves ⟨b₁, standIn⟩ = e.moves ⟨b₂, standIn⟩

theorem Phrase.alike (standIn : Span → Number) (e : Phrase st)
    (h : b₁.AgreeOn (mentions e.tokens) b₂) : e.Alike standIn b₁ b₂ := by
  -- every part mentions some of the names of the whole
  induction e with
  | literal l => exact ⟨rfl, rfl, rfl⟩
  | name m =>
    have hm := h m.name (m.mem_mentions (List.mem_singleton_self m.token))
    exact ⟨by simp only [value, hm], rfl, by simp only [moves, Mention.unbound, hm]⟩
  | operand u ih | term t ih =>
    obtain ⟨hv, hf, hm⟩ := ih h
    exact ⟨hv, hf, hm⟩
  | primary p ih =>
    obtain ⟨hv, hf, hm⟩ := ih h
    exact ⟨hv, hf, by rw [moves, moves, hm]⟩
  | parenthesis opening inner closing ih =>
    have hinner : b₁.AgreeOn (mentions inner.tokens) b₂ := h.of_subset fun t ht => by simp [tokens, ht]
    obtain ⟨hv, hf, hm⟩ := ih hinner
    exact ⟨hv, hf, by rw [moves, moves, hm]⟩
  | call f opening arg closing ih =>
    have harg : b₁.AgreeOn (mentions arg.tokens) b₂ := h.of_subset fun t ht => by simp [tokens, ht]
    obtain ⟨hv, hf, hm⟩ := ih harg
    refine ⟨?_, ?_, ?_⟩
    · rw [value, value, hv, Scope.settled_congr b₁ b₂]
    · rw [faults, faults, hv, hf]
    · rw [moves, moves, hv, hm]
  | sign o u ih =>
    have hu : b₁.AgreeOn (mentions u.tokens) b₂ := h.of_subset fun t ht => by simp [tokens, ht]
    obtain ⟨hv, hf, hm⟩ := ih hu
    refine ⟨?_, ?_, ?_⟩
    · rw [value, value, hv, Scope.settled_congr b₁ b₂]
    · rw [faults, faults, hv, hf]
    · rw [moves, moves, hv, hm]
  | product lhs o ho rhs ihl ihr | sum lhs o ho rhs ihl ihr =>
    have hl : b₁.AgreeOn (mentions lhs.tokens) b₂ := h.of_subset fun t ht => by simp [tokens, ht]
    have hr : b₁.AgreeOn (mentions rhs.tokens) b₂ := h.of_subset fun t ht => by simp [tokens, ht]
    obtain ⟨hvl, hfl, hml⟩ := ihl hl
    obtain ⟨hvr, hfr, hmr⟩ := ihr hr
    refine ⟨?_, ?_, ?_⟩
    · rw [value, value, hvl, hvr, Scope.settled_congr b₁ b₂]
    · rw [faults, faults, hvl, hvr, hfl, hfr]
    · rw [moves, moves, hvl, hvr, hml, hmr]

theorem Gap.moves_congr (standIn : Span → Number) (g : Gap st)
    (h : b₁.AgreeOn (mentions g.tokens) b₂) : g.moves ⟨b₁, standIn⟩ = g.moves ⟨b₂, standIn⟩ := by
  induction g with
  | here => rfl
  | operand g ih | term g ih => exact ih h
  | call f opening g ih | parenthesis opening g ih | sign o g ih =>
    have hg : b₁.AgreeOn (mentions g.tokens) b₂ := h.of_subset fun t ht => by simp [tokens, ht]
    rw [moves, moves, ih hg]
  | product lhs o ho g ih | sum lhs o ho g ih =>
    have hl : b₁.AgreeOn (mentions lhs.tokens) b₂ := h.of_subset fun t ht => by simp [tokens, ht]
    have hg : b₁.AgreeOn (mentions g.tokens) b₂ := h.of_subset fun t ht => by simp [tokens, ht]
    rw [moves, moves, ih hg, (lhs.alike standIn hl).moves]

theorem Want.moves_congr (standIn : Span → Number) (t : Token) (w : Want)
    (h : b₁.AgreeOn (mentions w.tokens) b₂) : w.moves ⟨b₁, standIn⟩ t = w.moves ⟨b₂, standIn⟩ t := by
  cases w with
  | operand => rfl
  | bracket f => rfl
  | closeCall f opening arg =>
    have harg : b₁.AgreeOn (mentions arg.tokens) b₂ := h.of_subset fun t ht => by simp [tokens, ht]
    rw [moves, moves, (arg.alike standIn harg).moves]
  | close opening inner =>
    have hinner : b₁.AgreeOn (mentions inner.tokens) b₂ :=
      h.of_subset fun t ht => by simp [tokens, ht]
    rw [moves, moves, (inner.alike standIn hinner).moves]

/-! ### Lines -/

theorem Content.moves_congr (standIn : Span → Number) (c : Content)
    (h : b₁.AgreeOn (mentions c.tokens) b₂) :
    c.moves ⟨b₁, standIn⟩ = c.moves ⟨b₂, standIn⟩ ∧
      c.verdict ⟨b₁, standIn⟩ = c.verdict ⟨b₂, standIn⟩ := by
  cases c with
  | remark r => exact ⟨rfl, rfl⟩
  | expression lead e r? =>
    have he : b₁.AgreeOn (mentions e.tokens) b₂ := h.of_subset fun t ht => by simp [tokens, ht]
    obtain ⟨hv, hf, hm⟩ := e.alike standIn he
    constructor
    · rw [moves, moves, deedMoves, deedMoves, hm]
    · rw [verdict, verdict, faults, faults, deed, deed, hv, hf]

/-- What a line does is decided by the names that it mentions. -/
theorem Line.moves_congr (standIn : Span → Number) (l : Line)
    (h : b₁.AgreeOn (mentions l.tokens) b₂) : l.moves ⟨b₁, standIn⟩ = l.moves ⟨b₂, standIn⟩ := by
  cases l with
  | blank stop => rfl
  | full c stop =>
    have hc : b₁.AgreeOn (mentions c.tokens) b₂ := h.of_subset fun t ht => by simp [tokens, ht]
    obtain ⟨hm, hv⟩ := c.moves_congr standIn hc
    rw [moves, moves, hm, hv]

theorem Slip.moves_congr (standIn : Span → Number) (x : Slip)
    (h : b₁.AgreeOn (mentions x.tokens) b₂) : x.moves ⟨b₁, standIn⟩ = x.moves ⟨b₂, standIn⟩ := by
  cases x with
  | stray lead g w t d after =>
    have hg : b₁.AgreeOn (mentions g.tokens) b₂ := h.of_subset fun t ht => by simp [tokens, ht]
    have hw : b₁.AgreeOn (mentions w.tokens) b₂ := h.of_subset fun t ht => by simp [tokens, ht]
    rw [moves, moves, g.moves_congr standIn hg, w.moves_congr standIn t hw]
  | trailing c t after =>
    have hc : b₁.AgreeOn (mentions c.tokens) b₂ := h.of_subset fun t ht => by simp [tokens, ht]
    rw [moves, moves, (c.moves_congr standIn hc).1]

end Grammar

end LineCalc
