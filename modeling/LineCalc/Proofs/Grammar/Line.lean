import LineCalc.Proofs.Grammar.Parse

/-!
# Lines

A line is blank, or a comment, or an expression with perhaps a comment behind it; in front of the
expression may stand a name and `=`. A line ends with the end of the line, or of the input.

A `Slip` is a list of tokens that is no line: its expression strays into a gap, or it goes on where
it should end. Every row of tokens, of which only the last one ends a line, is one or the other.
-/

namespace LineCalc

namespace Grammar

/-! ### The parts of a line -/

/-- A comment. -/
structure Remark where
  token : Token
  text : String
  isComment : token.kind = .comment
  payload : token.payload = .comment text

/-- The end of a line. -/
abbrev LineEnd := { t : Token // t.kind.endsLine = true }

/-- What stands in front of the expression of a line: nothing, or a name and `=`. -/
inductive Lead where
  | print
  | store (m : Mention) (equals : { t : Token // t.kind = .equals })

/-- What stands on a line that is not blank. -/
inductive Content where
  | remark (r : Remark)
  | expression (lead : Lead) (e : Phrase .sum) (r? : Option Remark)

/-- A line. -/
inductive Line where
  | blank (stop : LineEnd)
  | full (c : Content) (stop : LineEnd)

/-- Tokens that are no line. Reading them gets stuck at the token `t`. -/
inductive Slip where
  /-- An expression strays into a gap. -/
  | stray (lead : Lead) (g : Gap .sum) (w : Want) (t : Token) (d : Diagnostic) (after : List Token)
  /-- The line goes on behind its content. -/
  | trailing (c : Content) (t : Token) (after : List Token)

namespace Lead

/-- The tokens in front of the expression. -/
def tokens : Lead → List Token
  | print => []
  | store m equals => [m.token, equals.1]

/-- What the line asks for, once its expression has a value. -/
def deed : Lead → Number → Deed
  | print, value => .print value
  | store m _, value => .store m.name value

/-- The moves that take the tokens. -/
def moves : Lead → List Move
  | print => []
  | store m equals => [.take m.token, .take equals.1]

@[simp] theorem taken_moves (lead : Lead) : Move.taken lead.moves = lead.tokens := by
  cases lead <;> rfl

@[simp] theorem outputs_moves (lead : Lead) : Move.outputs lead.moves = [] := by
  cases lead <;> rfl

/-- The tokens show from the outset that this is the lead: they are neither blank nor a comment, and
an assignment only if it is one. -/
def ShownBy (lead : Lead) (toks : List Token) : Prop :=
  ∃ a b rest, toks = a :: b :: rest ∧ a.kind.endsLine = false ∧
    match lead with
    | print => a.kind ≠ .comment ∧ ¬(a.kind = .ident ∧ b.kind = .equals)
    | store .. => True

end Lead

namespace LineEnd

/-- The end of the input is not taken. -/
def moves (stop : LineEnd) : List Move :=
  if stop.1.kind = .newLine then [.look 0, .take stop.1] else [.look 0]

@[simp] theorem outputs_moves (stop : LineEnd) : Move.outputs (moves stop) = [] := by
  unfold moves
  split <;> rfl

theorem kind_eq (stop : LineEnd) : stop.1.kind = .newLine ∨ stop.1.kind = .endOfInput := by
  have h := stop.2
  cases hk : stop.1.kind <;> simp_all [TokenKind.endsLine]

theorem moves_of_newLine {stop : LineEnd} (h : stop.1.kind = .newLine) :
    moves stop = [.look 0, .take stop.1] := if_pos h

theorem moves_of_endOfInput {stop : LineEnd} (h : stop.1.kind = .endOfInput) :
    moves stop = [.look 0] := if_neg (by simp [h])

theorem taken_moves_of_newLine {stop : LineEnd} (h : stop.1.kind = .newLine) :
    Move.taken (moves stop) = [stop.1] := by
  rw [moves_of_newLine h]
  rfl

theorem taken_moves_of_endOfInput {stop : LineEnd} (h : stop.1.kind = .endOfInput) :
    Move.taken (moves stop) = [] := by
  rw [moves_of_endOfInput h]
  rfl

@[simp] theorem foldl_charge_moves (stop : LineEnd) (fault : Option Diagnostic) :
    (moves stop).foldl Move.charge fault = fault := by
  unfold moves
  split <;> rfl

end LineEnd

namespace Remark

/-- The tokens of a comment that may be missing. -/
def tokens (r? : Option Remark) : List Token := r?.toList.map token

/-- The moves that take a comment, if there is one. -/
def moves : Option Remark → List Move
  | none => [.look 0]
  | some r => [.look 0, .take r.token, .note (.comment r.text)]

@[simp] theorem taken_moves (r? : Option Remark) : Move.taken (moves r?) = tokens r? := by
  cases r? <;> rfl

end Remark

namespace Content

/-- The tokens of the content. -/
def tokens : Content → List Token
  | remark r => [r.token]
  | expression lead e r? => lead.tokens ++ e.tokens ++ Remark.tokens r?

/-- How many signs, calls and parentheses are open at once. -/
def height : Content → Nat
  | remark _ => 0
  | expression _ e _ => e.height

/-- What the line asks for. -/
def deed (scope : Scope) : Content → Deed
  | remark _ => .nothing
  | expression lead e _ => lead.deed (e.value scope)

/-- The diagnostics of operations without a value. -/
def faults (scope : Scope) : Content → List Diagnostic
  | remark _ => []
  | expression _ e _ => e.faults scope

/-- The moves of reading what the line asks for. -/
def deedMoves (scope : Scope) : Content → List Move
  | remark _ => [.look 0, .look 1]
  | expression lead e _ => .look 0 :: .look 1 :: (lead.moves ++ (e.moves scope ++ [.look 0]))

/-- The comment that ends the content. -/
def remark? : Content → Option Remark
  | remark r => some r
  | expression _ _ r? => r?

/-- The moves of reading the content. -/
def moves (scope : Scope) (c : Content) : List Move := c.deedMoves scope ++ Remark.moves c.remark?

@[simp] theorem taken_moves (scope : Scope) (c : Content) :
    Move.taken (c.moves scope) = c.tokens := by
  cases c <;> simp [moves, deedMoves, tokens, remark?, Remark.tokens]

theorem length_outputs_moves (scope : Scope) (c : Content) :
    (Move.outputs (c.moves scope)).length ≤ c.tokens.length := by
  cases c with
  | remark r => simp [moves, deedMoves, remark?, Remark.moves]
  | expression lead e r? =>
    have he := e.length_unbound_le scope
    cases r? <;> simp [moves, deedMoves, remark?, Remark.moves, tokens] <;> omega

@[simp] theorem foldl_charge_moves (scope : Scope) (c : Content) :
    (c.moves scope).foldl Move.charge none = (c.faults scope).head? := by
  cases c with
  | remark r => rfl
  | expression lead e r? => cases lead <;> cases r? <;> simp [moves, deedMoves, remark?,
      Remark.moves, Lead.moves, faults]

/-- The moves of doing what the line asks for, or of reporting its first fault. -/
def verdict (scope : Scope) (c : Content) : List Move :=
  match (c.faults scope).head?, c.deed scope with
  | some d, _ => [.forgive, .report d]
  | none, .nothing => []
  | none, .print value => [.print value]
  | none, .store name value => [.note (.stored name value)]

theorem length_outputs_verdict (scope : Scope) (c : Content) :
    (Move.outputs (c.verdict scope)).length ≤ 1 := by
  unfold verdict
  split <;> simp

/-- The bindings behind the line. -/
def bindings (scope : Scope) (c : Content) : Bindings :=
  match (c.faults scope).head?, c.deed scope with
  | none, .store name value => scope.bindings.set name value
  | _, _ => scope.bindings

/-- The tokens show from the outset that this is the content. -/
def ShownBy (toks : List Token) : Content → Prop
  | remark _ => True
  | expression lead _ _ => lead.ShownBy toks

/-- Whatever ends the content, its tokens show it. -/
theorem shownBy (c : Content) {next : Token} (hn : next.kind ≠ .equals) (rest : List Token) :
    c.ShownBy (c.tokens ++ next :: rest) := by
  cases c with
  | remark r => trivial
  | expression lead e r? =>
    cases lead with
    | store m equals =>
      exact ⟨m.token, equals.1, _, rfl, by simp [m.isIdent, TokenKind.endsLine], trivial⟩
    | print =>
      obtain ⟨a, toks, ht⟩ := List.exists_cons_of_ne_nil e.tokens_ne_nil
      have ha := e.inExpression a (by simp [ht])
      -- the second token is one of the expression, the comment, or what ends the content
      obtain ⟨b, more, hb, hne⟩ : ∃ b more, toks ++ (Remark.tokens r? ++ next :: rest) = b :: more ∧
          b.kind ≠ .equals := by
        cases toks with
        | cons b toks =>
          have := e.inExpression b (by simp [ht])
          exact ⟨b, _, rfl, fun h => by simp [h, TokenKind.inExpression] at this⟩
        | nil =>
          cases r? with
          | none => exact ⟨next, rest, rfl, hn⟩
          | some r => exact ⟨r.token, _, rfl, by simp [r.isComment]⟩
      refine ⟨a, b, more, ?_, TokenKind.endsLine_of_inExpression ha, ?_, fun h => hne h.2⟩
      · simp [tokens, Lead.tokens, ht, hb]
      · intro h
        simp [h, TokenKind.inExpression] at ha

theorem ShownBy.append_right {c : Content} {toks : List Token} (h : c.ShownBy toks)
    (more : List Token) : c.ShownBy (toks ++ more) := by
  cases c with
  | remark r => trivial
  | expression lead e r? =>
    obtain ⟨a, b, rest, rfl, h⟩ := h
    exact ⟨a, b, rest ++ more, rfl, h⟩

theorem exists_tokens_eq_cons (c : Content) :
    ∃ a toks, c.tokens = a :: toks ∧ a.kind.endsLine = false := by
  cases c with
  | remark r => exact ⟨r.token, [], rfl, by simp [r.isComment, TokenKind.endsLine]⟩
  | expression lead e r? =>
    cases lead with
    | store m equals => exact ⟨m.token, _, rfl, by simp [m.isIdent, TokenKind.endsLine]⟩
    | print =>
      obtain ⟨a, toks, ht⟩ := List.exists_cons_of_ne_nil e.tokens_ne_nil
      exact ⟨a, _, by simp only [tokens, Lead.tokens, ht]; rfl, e.endsLine a (by simp [ht])⟩

theorem exists_of_mem_faults (c : Content) (scope : Scope) {d : Diagnostic}
    (hd : d ∈ c.faults scope) : ∃ x, d.problem = .arithmetic x := by
  cases c with
  | remark r => cases hd
  | expression lead e r? => exact e.exists_of_mem_faults scope hd

theorem isLexical_of_mem_faults (c : Content) (scope : Scope) :
    ∀ d ∈ c.faults scope, d.isLexical = false := by
  intro d hd
  obtain ⟨x, hx⟩ := c.exists_of_mem_faults scope hd
  rw [Diagnostic.isLexical, hx]

/-- The content cannot go on with the token `t`. -/
def EndsAt (t : Token) : Content → Prop
  | remark _ => True
  | expression _ _ none => t.kind ≠ .comment ∧ t.kind.isOperator = false
  | expression _ _ (some _) => True

/-- Nothing goes on with a token that ends the line. -/
theorem endsAt_lineEnd (c : Content) (stop : LineEnd) : c.EndsAt stop.1 := by
  rcases c with r | ⟨lead, e, _ | r⟩
  · trivial
  · obtain hk | hk := stop.kind_eq <;> simp [EndsAt, hk, TokenKind.isOperator]
  · trivial

end Content

namespace Line

/-- The tokens of a line. -/
def tokens : Line → List Token
  | blank stop => [stop.1]
  | full c stop => c.tokens ++ [stop.1]

/-- How many signs, calls and parentheses are open at once. -/
def height : Line → Nat
  | blank _ => 0
  | full c _ => c.height

/-- The moves of evaluating a line. -/
def moves (scope : Scope) : Line → List Move
  | blank stop => .clear :: stop.moves
  | full c stop =>
    .clear :: .look 0 :: .count :: (c.moves scope ++ (stop.moves ++ c.verdict scope))

/-- What comes out: the bindings behind the line, unless it is the end of the input. -/
def result (scope : Scope) : Line → Option Bindings
  | blank stop => if stop.1.kind = .newLine then some scope.bindings else none
  | full c _ => some (c.bindings scope)

theorem length_outputs_moves (scope : Scope) (l : Line) :
    (Move.outputs (l.moves scope)).length ≤ 2 * (Move.taken (l.moves scope)).length := by
  cases l with
  | blank stop => simp [moves]
  | full c stop =>
    have hc := c.length_outputs_moves scope
    have hv := c.length_outputs_verdict scope
    obtain ⟨a, toks, ht, -⟩ := c.exists_tokens_eq_cons
    have hl : c.tokens.length = toks.length + 1 := by rw [ht, List.length_cons]
    simp [moves]
    omega

end Line

namespace Slip

/-- The tokens. -/
def tokens : Slip → List Token
  | stray lead g w t _ after => lead.tokens ++ (g.tokens ++ (w.tokens ++ t :: after))
  | trailing c t after => c.tokens ++ t :: after

/-- The tokens in front of the one that does not fit. -/
def before : Slip → List Token
  | stray lead g w _ _ _ => lead.tokens ++ (g.tokens ++ w.tokens)
  | trailing c _ _ => c.tokens

/-- The token that does not fit. -/
def token : Slip → Token
  | stray _ _ _ t _ _ => t
  | trailing _ t _ => t

/-- The tokens behind it. -/
def after : Slip → List Token
  | stray _ _ _ _ _ after => after
  | trailing _ _ after => after

theorem tokens_eq (x : Slip) : x.tokens = x.before ++ x.token :: x.after := by
  cases x <;> simp [tokens, before, token, after]

/-- The moves of reading up to the token that does not fit. -/
def moves (scope : Scope) : Slip → List Move
  | stray lead g w t _ _ =>
    .clear :: .look 0 :: .count :: .look 0 :: .look 1 ::
      (lead.moves ++ (g.moves scope ++ w.moves scope t))
  | trailing c _ _ => .clear :: .look 0 :: .count :: (c.moves scope ++ [.look 0])

@[simp] theorem taken_moves (scope : Scope) (x : Slip) :
    Move.taken (x.moves scope) = x.before := by
  cases x <;> simp [moves, before]

theorem length_outputs_moves (scope : Scope) (x : Slip) :
    (Move.outputs (x.moves scope)).length ≤ x.before.length := by
  cases x with
  | stray lead g w t d after =>
    have hg := g.length_outputs_moves scope
    have hw := w.length_outputs_moves scope t
    simp only [moves, before, Move.outputs_cons, Move.outputs_append, Lead.outputs_moves,
      List.length_append]
    simp
    omega
  | trailing c t after =>
    have hc := c.length_outputs_moves scope
    simpa [moves, before] using hc

/-- How the token that does not fit is complained of. -/
def diagnostic : Slip → Diagnostic
  | stray _ _ _ _ d _ => d
  | trailing _ t _ => .unexpected t

/-- The tokens are read in this way. -/
def Fits (x : Slip) : Prop :=
  match x with
  | stray lead g w t d _ => g.height ≤ maxNesting ∧ g.levels + w.height ≤ maxNesting ∧
      w.Blames g.levels t d ∧ lead.ShownBy x.tokens
  | trailing c t _ => c.height ≤ maxNesting ∧ t.kind.endsLine = false ∧ c.EndsAt t ∧
      c.ShownBy x.tokens

end Slip

/-! ### Every row is a line or a slip -/

/-- A row of tokens, of which only the last one ends a line. -/
def IsRow (toks : List Token) : Prop :=
  ∃ body stop, toks = body ++ [stop] ∧ stop.kind.endsLine = true ∧
    ∀ t ∈ body, t.kind.endsLine = false

namespace IsRow

variable {toks front rest : List Token} {t : Token}

theorem readable (h : IsRow toks) (hw : ∀ t ∈ toks, t.WellFormed) : Readable toks := by
  obtain ⟨body, stop, rfl, hs, -⟩ := h
  exact ⟨⟨stop, by simp, hs⟩, hw⟩

theorem eq_nil (h : IsRow (front ++ t :: rest)) (ht : t.kind.endsLine = true) : rest = [] := by
  obtain ⟨body, stop, he, -, hb⟩ := h
  obtain rfl | ⟨rest, last, rfl⟩ := List.eq_nil_or_concat rest
  · rfl
  · rw [List.concat_eq_append, ← List.cons_append, ← List.append_assoc] at he
    obtain ⟨rfl, -⟩ := List.append_inj' he rfl
    simp [hb t (by simp)] at ht

theorem of_append (h : IsRow (front ++ rest)) (hr : rest ≠ []) : IsRow rest := by
  induction front with
  | nil => exact h
  | cons a front ih =>
    refine ih ?_
    obtain ⟨body, stop, he, hs, hb⟩ := h
    cases body with
    | nil =>
      obtain ⟨-, hn⟩ := List.cons.inj he
      exact absurd (List.append_eq_nil_iff.mp hn).2 hr
    | cons b body =>
      obtain ⟨-, he⟩ := List.cons.inj he
      exact ⟨body, stop, he, hs, fun t ht => hb t (List.mem_cons_of_mem b ht)⟩

end IsRow

/-- Behind a complete content the line ends, or the next token is a slip. -/
theorem exists_of_content (c : Content) {t : Token} {rest : List Token}
    (hr : IsRow (c.tokens ++ t :: rest)) (hh : c.height ≤ maxNesting) (he : c.EndsAt t)
    (hs : c.ShownBy (c.tokens ++ t :: rest)) :
    (∃ l : Line, l.height ≤ maxNesting ∧ l.tokens = c.tokens ++ t :: rest) ∨
      ∃ x : Slip, x.Fits ∧ x.tokens = c.tokens ++ t :: rest := by
  by_cases ht : t.kind.endsLine = true
  · obtain rfl : rest = [] := hr.eq_nil ht
    exact .inl ⟨.full c ⟨t, ht⟩, hh, rfl⟩
  · exact .inr ⟨.trailing c t rest, ⟨hh, by simpa using ht, he, hs⟩, rfl⟩

/-- What comes of a row whose lead is known. -/
theorem exists_of_leads (lead : Lead) {toks : List Token} (hr : IsRow (lead.tokens ++ toks))
    (hw : ∀ t ∈ lead.tokens ++ toks, t.WellFormed) (hs : lead.ShownBy (lead.tokens ++ toks))
    (hl : Leads 0 .sum toks) :
    (∃ l : Line, l.height ≤ maxNesting ∧ l.tokens = lead.tokens ++ toks) ∨
      ∃ x : Slip, x.Fits ∧ x.tokens = lead.tokens ++ toks := by
  obtain ⟨e, next, rest, rfl, hh, hn⟩ | ⟨g, w, t, rest, d, rfl, hh, hi, hb⟩ := hl
  · rw [Nat.zero_add] at hh
    by_cases hc : next.kind = .comment
    · obtain ⟨text, ht⟩ : ∃ text, next.payload = .comment text := by
        have := hw next (by simp)
        simpa [Token.WellFormed, hc] using this
      let r : Remark := ⟨next, text, hc, ht⟩
      -- a comment does not end the row, so that there is a token behind it
      obtain ⟨t, rest, rfl⟩ : ∃ t rest', rest = t :: rest' := by
        refine List.exists_cons_of_ne_nil ?_
        rintro rfl
        obtain ⟨body, stop, he, hs, -⟩ := hr
        rw [← List.append_assoc] at he
        obtain ⟨-, he⟩ := List.append_inj' he rfl
        obtain rfl : next = stop := by simpa using he
        simp [hc, TokenKind.endsLine] at hs
      have e₁ : lead.tokens ++ (e.tokens ++ next :: t :: rest) =
          (Content.expression lead e (some r)).tokens ++ t :: rest := by
        simp [Content.tokens, Remark.tokens, r]
      rw [e₁] at hr hs ⊢
      exact exists_of_content (.expression lead e (some r)) hr hh trivial hs
    · have e₁ : lead.tokens ++ (e.tokens ++ next :: rest) =
          (Content.expression lead e none).tokens ++ next :: rest := by
        simp [Content.tokens, Remark.tokens]
      rw [e₁] at hr hs ⊢
      exact exists_of_content (.expression lead e none) hr hh ⟨hc, isOperator_eq_false hn⟩ hs
  · simp only [Nat.zero_add] at hh hi hb
    exact .inr ⟨.stray lead g w t d rest, ⟨hh, hi, hb, hs⟩, rfl⟩

/-- Every row of tokens is a line or a slip. -/
theorem exists_line_or_slip {toks : List Token} (hr : IsRow toks)
    (hw : ∀ t ∈ toks, t.WellFormed) :
    (∃ l : Line, l.height ≤ maxNesting ∧ l.tokens = toks) ∨
      ∃ x : Slip, x.Fits ∧ x.tokens = toks := by
  have hread := hr.readable hw
  obtain ⟨a, rest, rfl⟩ := hread.exists_eq_cons
  by_cases ha : a.kind.endsLine = true
  · obtain rfl : rest = [] := IsRow.eq_nil (show IsRow ([] ++ a :: rest) from hr) ha
    exact .inl ⟨.blank ⟨a, ha⟩, Nat.zero_le _, rfl⟩
  -- two tokens are enough to tell what the line asks for
  have ha : a.kind.endsLine = false := by simpa using ha
  obtain ⟨b, rest, rfl⟩ := (hread.tail ha).exists_eq_cons
  by_cases hc : a.kind = .comment
  · obtain ⟨text, ht⟩ : ∃ text, a.payload = .comment text := by
      simpa [Token.WellFormed, hc] using hread.head
    let r : Remark := ⟨a, text, hc, ht⟩
    exact exists_of_content (.remark r) hr (Nat.zero_le _) trivial trivial
  by_cases hab : a.kind = .ident ∧ b.kind = .equals
  · obtain ⟨name, hn⟩ : ∃ name, a.payload = .ident name := by
      simpa [Token.WellFormed, hab.1] using hread.head
    let lead : Lead := .store ⟨a, name, hab.1, hn⟩ ⟨b, hab.2⟩
    exact exists_of_leads lead hr hw ⟨a, b, rest, rfl, ha, trivial⟩
      (leads ((hread.tail ha).tail (by simp [hab.2, TokenKind.endsLine])))
  · exact exists_of_leads .print hr hw ⟨a, b, rest, rfl, ha, hc, hab⟩ (leads hread)

end Grammar

end LineCalc
