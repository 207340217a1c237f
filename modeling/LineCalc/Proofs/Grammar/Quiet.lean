import LineCalc.Proofs.Grammar.Ordinary

/-!
# Quiet moves

While a line is read, nothing comes out but diagnostics of characters, literals and names: the moves
in front of the verdict on the line are quiet, whether the line is complete or not.
-/

namespace LineCalc

/-- Does the diagnostic tell of a character, a literal or a name? It then stops nothing. -/
def Diagnostic.isNotice (d : Diagnostic) : Bool :=
  match d.problem with
  | .illegalChar _ | .literalRange _ | .undefined _ => true
  | _ => false

/-- Does the diagnostic tell of an operation without a value? -/
def Diagnostic.isArithmetic (d : Diagnostic) : Bool :=
  match d.problem with
  | .arithmetic _ => true
  | _ => false

/-- Is this output a diagnostic of a character, a literal or a name? -/
def Output.isNotice : Output → Bool
  | .value _ => false
  | .diagnostic d => d.isNotice

theorem Diagnostic.isNotice_of_isLexical {d : Diagnostic} (h : d.isLexical = true) :
    d.isNotice = true := by
  obtain ⟨problem, span⟩ := d
  cases problem <;> first | rfl | cases h

theorem Output.isNotice_of_isLexical {o : Output} (h : o.isLexical = true) : o.isNotice = true := by
  cases o with
  | value n => cases h
  | diagnostic d => exact Diagnostic.isNotice_of_isLexical h

/-- The move prints nothing, reports nothing but names without a value, and notes only single steps.
-/
def Move.Quiet : Move → Prop
  | .report d => d.isNotice = true
  | .print _ => False
  | .note e => e.level = .trace
  | _ => True

namespace Progress

variable {s s' : Script} {m : List Move}

/-- Quiet moves put out notices only. -/
theorem exists_queue (p : Progress s m s') (hs : s.Lexical) (hm : ∀ x ∈ m, x.Quiet) :
    ∃ new, s'.queue = s.queue ++ new ∧ ∀ o ∈ new, o.isNotice = true := by
  obtain ⟨read, new, -, hq, -, hn⟩ := p.queue hs
  refine ⟨new, hq, fun o ho => ?_⟩
  by_cases hl : o.isLexical = true
  · exact Output.isNotice_of_isLexical hl
  · have ho : o ∈ Move.outputs m := by
      rw [← hn, List.mem_filter]
      exact ⟨ho, by simpa using hl⟩
    obtain ⟨x, hx, hxo⟩ := List.mem_filterMap.mp ho
    have hquiet := hm x hx
    cases x with
    | report d =>
      obtain rfl : Output.diagnostic d = o := Option.some.inj hxo
      exact hquiet
    | print n => exact hquiet.elim
    | _ => cases hxo

end Progress

theorem Move.Ordinary.quiet {x : Move} (h : x.Ordinary) : x.Quiet := by
  cases h with
  | undefined | operation | sign | call | comment => rfl
  | first | second | take | blame | enter | leave => trivial

namespace Grammar

theorem LineEnd.quiet_moves (stop : LineEnd) : ∀ x ∈ LineEnd.moves stop, x.Quiet :=
  fun x hx => (stop.ordinary_moves x hx).quiet

/-- Whatever is wrong with a line, it is noticed before anything is printed. -/
theorem Slip.quiet_moves (scope : Scope) (x : Slip) : ∀ y ∈ x.moves scope, y.Quiet := by
  obtain ⟨inner, hm, hinner⟩ := x.exists_moves_eq scope
  rw [hm]
  simp only [List.forall_mem_cons]
  exact ⟨trivial, trivial, trivial, fun y hy => (hinner y hy).quiet⟩

namespace Line

/-- The moves of a line before the verdict on it. -/
def reading (scope : Scope) : Line → List Move
  | blank stop => .clear :: LineEnd.moves stop
  | full c stop => .clear :: .look 0 :: .count :: (c.moves scope ++ LineEnd.moves stop)

/-- What is done at the end of a line. -/
def verdict (scope : Scope) : Line → List Move
  | blank _ => []
  | full c _ => c.verdict scope

theorem moves_eq (scope : Scope) (l : Line) : l.moves scope = l.reading scope ++ l.verdict scope := by
  cases l <;> simp [moves, reading, verdict]

theorem quiet_reading (scope : Scope) (l : Line) : ∀ x ∈ l.reading scope, x.Quiet := by
  cases l with
  | blank stop =>
    simp only [reading, List.forall_mem_cons]
    exact ⟨trivial, stop.quiet_moves⟩
  | full c stop =>
    simp only [reading, List.forall_mem_cons, List.forall_mem_append]
    exact ⟨trivial, trivial, trivial, fun x hx => (c.ordinary_moves scope x hx).quiet,
      stop.quiet_moves⟩

end Line

end Grammar

end LineCalc
