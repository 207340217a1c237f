import LineCalc.Proofs.Sound

/-!
# The value of an expression

What precedence climbing does to the tokens of an expression is what its derivation says: it takes
exactly these tokens and comes to the value of the phrase. Names without a value are reported in
their order, and the first operation without a value is the fault.
-/

namespace LineCalc

open Grammar Eval

/-- **Precedence climbing evaluates the phrase.** What is put out meanwhile are the diagnostics that
were read, and one diagnostic for each occurrence of a name without a value. -/
theorem wholeExpression_eq_value (bindings : Bindings) (e : Phrase .sum) {s : Script} {next : Token}
    {rest : List Token} (hs : s.Sound) (ha : s.ahead = e.tokens ++ next :: rest)
    (hn : next.kind.isOperator = false) (hh : e.height ≤ maxNesting) (hd : s.depth = 0) :
    ∃ s' read new, wholeExpression (.ofBindings bindings) s =
        .ok (e.value (.ofBindings bindings)) s' ∧
      s'.ahead = next :: rest ∧ s'.depth = 0 ∧
      s'.evalTally.tokens = s.evalTally.tokens + e.tokens.length ∧
      s'.fault = s.fault.or (e.faults (.ofBindings bindings)).head? ∧
      s.unread = read ++ s'.unread ∧ s'.queue = s.queue ++ new ∧
      new.filter Output.isLexical = (Reading.diagnostics read).map .diagnostic ∧
      new.filter (!·.isLexical) = (e.unbound (.ofBindings bindings)).map .diagnostic := by
  have hp : Poised s e.tokens e.height next := ⟨⟨rest, ha⟩, hs.room, by rw [hd, Nat.zero_add]; exact hh⟩
  obtain ⟨s', h', p, d'⟩ := yields_wholeExpression (.ofBindings bindings) e hp hd hn
  obtain ⟨read, new, hu, hq, hl, ho⟩ := p.queue hs.lexical
  refine ⟨s', read, new, h', p.ahead_eq (by simpa using ha), d', ?_, ?_, hu, hq, hl, ?_⟩
  · rw [p.tokens]
    simp
  · rw [p.fault]
    simp
  · rw [ho]
    simp

/-- A place in the first line. -/
def placeAt (start stop : Nat) : Span := ⟨⟨1, start⟩, ⟨1, stop⟩⟩

/-- The expression `x-1/0`. -/
def quotient : Phrase .sum :=
  let x : Mention := ⟨⟨.ident, .ident "x", "x", placeAt 1 2⟩, "x", rfl, rfl⟩
  let one : Literal := ⟨⟨.number, .number (.int 1), "1", placeAt 3 4⟩, .int 1, rfl, rfl⟩
  let zero : Literal := ⟨⟨.number, .number (.int 0), "0", placeAt 5 6⟩, .int 0, rfl, rfl⟩
  .sum (.term (.operand (.primary (.name x)))) ⟨⟨.minus, .none, "-", placeAt 2 3⟩, rfl⟩
    (.inr rfl) (.product (.operand (.primary (.literal one)))
      ⟨⟨.slash, .none, "/", placeAt 4 5⟩, rfl⟩ (.inr rfl) (.primary (.literal zero)))

/-- The readings of the expression. -/
def quotientReadings : List Reading := quotient.tokens.map fun t => ⟨[], .ok t⟩

theorem proper_of_mem_quotientReadings : ∀ r ∈ quotientReadings, r.Proper := by
  simp [quotientReadings, quotient, Phrase.tokens, Reading.Proper, Token.WellFormed]

/-- Without a value for the name, it is reported, and the division is the fault. -/
theorem wholeExpression_quotient :
    let s := Script.ofReadings (quotientReadings ++ [⟨[], .ok (Reading.endToken {})⟩])
    s.Sound ∧ quotient.height ≤ maxNesting ∧
    ∃ s' read new, wholeExpression (.ofBindings {}) s = .ok (.int 0) s' ∧
      s'.ahead = [Reading.endToken {}] ∧ s'.depth = 0 ∧ s'.evalTally.tokens = 5 ∧
      s'.fault = some ⟨.arithmetic .divisionByZero, placeAt 4 5⟩ ∧
      s.unread = read ++ s'.unread ∧ s'.queue = new ∧
      new.filter Output.isLexical = (Reading.diagnostics read).map .diagnostic ∧
      new.filter (!·.isLexical) = [.diagnostic ⟨.undefined "x", placeAt 1 2⟩] := by
  have hs := Script.sound_ofReadings [] {} proper_of_mem_quotientReadings
  have hh : quotient.height ≤ maxNesting := by decide
  exact ⟨hs, hh, wholeExpression_eq_value {} quotient hs rfl rfl hh rfl⟩

end LineCalc
