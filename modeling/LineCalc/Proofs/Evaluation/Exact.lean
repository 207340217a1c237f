import LineCalc.Proofs.Evaluation.Storing
import LineCalc.Proofs.Evaluation.Value
import LineCalc.Proofs.Grammar.Integral
import LineCalc.Proofs.Sentences
import Mathlib.Algebra.Group.Int.Defs

/-!
# Exact integers

A statement on an integral expression prints or stores its exact value, if all its parts fit, and
otherwise reports the first part that does not. An expression that is nested too deeply has no value
at all, even if its parts fit.
-/

namespace LineCalc

open Grammar Move Number

namespace Grammar

namespace Lead

/-- The bindings when the expression has come to a value. -/
def bindings (b : Bindings) : Lead → Number → Bindings
  | print, _ => b
  | store m _, value => b.set m.name value

/-- What is printed of the value of the expression. -/
def printed : Lead → Number → List Output
  | print, value => [.value value]
  | store _ _, _ => []

end Lead

/-- What becomes of a line with an integral expression, and the bindings `b`: the bindings `b'` come
out, and `new` is put out. -/
structure ExactResult (b : Bindings) (lead : Lead) (e : Phrase .sum) (b' : Bindings)
    (new : List Output) : Prop where
  /-- A fault is reported just if some part does not fit. -/
  faulted : (∃ d, .diagnostic d ∈ new ∧ d.isArithmetic = true) ↔ ¬∀ p ∈ e.parts b, Fits p.exact
  /-- If all parts fit, the exact value is printed or stored. -/
  value : (∀ p ∈ e.parts b, Fits p.exact) → ∃ n : Int64, n.toInt = e.exact b ∧
    b' = lead.bindings b (.int n) ∧ new.filter (!·.isNotice) = lead.printed (.int n)
  /-- Otherwise the first part that does not fit is reported to be out of range. -/
  overflow : (¬∀ p ∈ e.parts b, Fits p.exact) → ∃ exact what place,
    FirstUnfit (e.parts b) ⟨exact, some (what, place)⟩ ∧ b' = b ∧
      new.filter (!·.isNotice) = [.diagnostic ⟨.arithmetic (.overflow what), place⟩]

variable {scope : Scope} {lead : Lead} {e : Phrase .sum} {r? : Option Remark}

theorem filter_notices_append {notices last : List Output}
    (hn : ∀ o ∈ notices, o.isNotice = true) (hl : ∀ o ∈ last, o.isNotice = false) :
    (notices ++ last).filter (!·.isNotice) = last := by
  have hnone : notices.filter (!·.isNotice) = [] := List.filter_eq_nil_iff.mpr (by simpa using hn)
  rw [List.filter_append, hnone, List.nil_append, List.filter_eq_self]
  simpa using hl

theorem not_exists_isArithmetic {notices : List Output} (hn : ∀ o ∈ notices, o.isNotice = true) :
    ¬∃ d, .diagnostic d ∈ notices ∧ d.isArithmetic = true := by
  rintro ⟨⟨problem, place⟩, hmem, hd⟩
  have hnotice := hn _ hmem
  cases problem with
  | arithmetic cause => cases hnotice
  | _ => cases hd

theorem Phrase.IsExact.result (h : e.IsExact scope) {notices : List Output}
    (hn : ∀ o ∈ notices, o.isNotice = true) :
    ExactResult scope.bindings lead e ((Content.expression lead e r?).bindings scope)
      (notices ++ outputs ((Content.expression lead e r?).verdict scope)) := by
  obtain ⟨hp, hf, n, hv, hexact⟩ := h
  have hb : (Content.expression lead e r?).bindings scope =
      lead.bindings scope.bindings (.int n) := by
    rw [Content.bindings, Content.faults, hf, Content.deed, hv]
    cases lead <;> rfl
  have ho : outputs ((Content.expression lead e r?).verdict scope) = lead.printed (.int n) := by
    rw [Content.verdict, Content.faults, hf, Content.deed, hv]
    cases lead <;> rfl
  have hl : ∀ o ∈ lead.printed (.int n), o = .value (.int n) := by
    cases lead <;> simp [Lead.printed]
  rw [hb, ho]
  refine ⟨iff_of_false ?_ (not_not_intro hp), fun _ => ⟨n, hexact, rfl, ?_⟩,
    fun hunfit => absurd hp hunfit⟩
  · rintro ⟨d, hmem, hd⟩
    rcases List.mem_append.mp hmem with hmem | hmem
    · exact not_exists_isArithmetic hn ⟨d, hmem, hd⟩
    · cases hl _ hmem
  · exact filter_notices_append hn fun o ho => by rw [hl o ho]; rfl

theorem Phrase.Overflows.result (h : e.Overflows scope) {notices : List Output}
    (hn : ∀ o ∈ notices, o.isNotice = true) :
    ExactResult scope.bindings lead e ((Content.expression lead e r?).bindings scope)
      (notices ++ outputs ((Content.expression lead e r?).verdict scope)) := by
  obtain ⟨exact, what, place, hfirst, hfault⟩ := h
  have hb : (Content.expression lead e r?).bindings scope = scope.bindings := by
    rw [Content.bindings, Content.faults, hfault]
  have ho : outputs ((Content.expression lead e r?).verdict scope) =
      [.diagnostic ⟨.arithmetic (.overflow what), place⟩] := by
    rw [Content.verdict, Content.faults, hfault]
    rfl
  rw [hb, ho]
  refine ⟨iff_of_true ⟨_, List.mem_append_right _ (List.mem_singleton_self _), rfl⟩
    hfirst.not_forall, fun hfit => absurd hfit hfirst.not_forall,
    fun _ => ⟨exact, what, place, hfirst, rfl, filter_notices_append hn ?_⟩⟩
  intro o ho
  obtain rfl := List.mem_singleton.mp ho
  rfl

end Grammar

/-- A script with the tokens of an expression, and nothing behind it. -/
def Script.ofPhrase (e : Phrase .sum) : Script :=
  .ofReadings (e.tokens.map (fun t => ⟨[], .ok t⟩) ++ [⟨[], .ok (Reading.endToken {})⟩])

/-- The end of the input behind the tokens of an expression. -/
def endOfPhrase : LineEnd := ⟨Reading.endToken {}, rfl⟩

theorem Script.ahead_ofPhrase (e : Phrase .sum) :
    (ofPhrase e).ahead = (Line.full (.expression .print e none) endOfPhrase).tokens := by
  have h : Reading.tokens (e.tokens.map fun t => ⟨[], .ok t⟩) = e.tokens := by
    induction e.tokens with
    | nil => rfl
    | cons t toks ih => rw [List.map_cons, Reading.tokens_ok, ih]
  simp [ofPhrase, ofReadings, ahead, h, Line.tokens, Content.tokens, Lead.tokens, Remark.tokens,
    endOfPhrase]

theorem Script.sound_ofPhrase {e : Phrase .sum} (h : ∀ t ∈ e.tokens, t.WellFormed) :
    (ofPhrase e).Sound := by
  refine sound_ofReadings [] {} fun r hr => ?_
  obtain ⟨t, ht, rfl⟩ := List.mem_map.mp hr
  refine ⟨h t ht, fun hk => ?_⟩
  have hin := e.inExpression t ht
  simp [hk, TokenKind.inExpression] at hin

namespace Grammar

/-- The expression `-x-1`. -/
def negated : Phrase .sum :=
  let x : Mention := ⟨⟨.ident, .ident "x", "x", placeAt 2 3⟩, "x", rfl, rfl⟩
  let one : Literal := ⟨⟨.number, .number (.int 1), "1", placeAt 4 5⟩, .int 1, rfl, rfl⟩
  .sum (.term (.operand (.sign ⟨⟨.minus, .none, "-", placeAt 1 2⟩, rfl⟩
    (.primary (.name x))))) ⟨⟨.minus, .none, "-", placeAt 3 4⟩, rfl⟩ (.inr rfl)
      (.operand (.primary (.literal one)))

end Grammar

namespace Work

variable {s : Script} {rest : List Token}

/-- **Integer results are exact.** A statement on an integral expression reports a fault just if the
exact value of some subexpression does not fit. If all fit, it prints or stores the exact value;
otherwise it reports that the operation is out of range that is the first subexpression, in
post-order, not to fit, at the place of its operator. -/
theorem statement_exact (hs : s.Sound) (standIn : Span → Number) (b : Bindings) {lead : Lead}
    {e : Phrase .sum} {r? : Option Remark} {stop : LineEnd}
    (ha : s.ahead = (Line.full (.expression lead e r?) stop).tokens ++ rest)
    (hh : e.height ≤ maxNesting) (hi : e.Integral b) :
    ∃ bindings s' new, statement standIn ⟨s, b⟩ = .ok .more ⟨s', bindings⟩ ∧
      s'.queue = s.queue ++ new ∧ ExactResult b lead e bindings new := by
  obtain ⟨s', notices, he, hq, hn, -⟩ := Eval.statement_line hs ⟨b, standIn⟩ _ ha hh
  rw [List.append_assoc] at hq
  refine ⟨_, s', _, statement_more.mpr he, hq, ?_⟩
  rcases Phrase.exact_or_overflows ⟨b, standIn⟩ e hi with h | h
  · exact h.result hn
  · exact h.result hn

/-- The negation of the least integer is out of range, although the whole expression is not. -/
theorem statement_exact_negated :
    let b := ({} : Bindings).set "x" (.int Int64.minValue)
    let s := Script.ofPhrase negated
    s.Sound ∧ negated.height ≤ maxNesting ∧ negated.Integral b ∧
    negated.parts b = [⟨-2 ^ 63, none⟩, ⟨2 ^ 63, some (.negation, placeAt 1 2)⟩, ⟨1, none⟩,
      ⟨2 ^ 63 - 1, some (.subtraction, placeAt 3 4)⟩] ∧
    ∃ bindings s' new, statement (fun _ => .int 0) ⟨s, b⟩ = .ok .more ⟨s', bindings⟩ ∧
      s'.queue = s.queue ++ new ∧ ExactResult b .print negated bindings new := by
  have hs : (Script.ofPhrase negated).Sound := Script.sound_ofPhrase (by
    simp [negated, Phrase.tokens, Token.WellFormed])
  have hh : negated.height ≤ maxNesting := by decide
  have hi : negated.Integral (({} : Bindings).set "x" (.int Int64.minValue)) := ⟨rfl, rfl⟩
  exact ⟨hs, hh, hi, rfl, statement_exact hs _ _
    (by rw [Script.ahead_ofPhrase, List.append_nil]) hh hi⟩

end Work

/-! ### Integral expressions that are nested too deeply -/

namespace Grammar

/-- An opening parenthesis. -/
def openingAt (column : Nat) : Opening :=
  ⟨⟨.leftParen, .none, "(", placeAt column (column + 1)⟩, rfl⟩

/-- A closing parenthesis. -/
def closingAt (column : Nat) : Closing :=
  ⟨⟨.rightParen, .none, ")", placeAt column (column + 1)⟩, rfl⟩

/-- The literal `1`. -/
def oneAt (column : Nat) : Literal :=
  ⟨⟨.number, .number (.int 1), "1", placeAt column (column + 1)⟩, .int 1, rfl, rfl⟩

/-- The literal `1` inside `n` parentheses, of which the first one opens at the column. -/
def nested : (n column : Nat) → Phrase .sum
  | 0, column => .term (.operand (.primary (.literal (oneAt column))))
  | n + 1, column => .term (.operand (.primary (.parenthesis (openingAt column)
      (nested n (column + 1)) (closingAt (column + 2 * n + 2)))))

/-- The gap inside `n` parentheses. -/
def nestedGap : (n column : Nat) → Gap .sum
  | 0, _ => .term (.operand .here)
  | n + 1, column => .term (.operand (.parenthesis (openingAt column) (nestedGap n (column + 1))))

theorem levels_nestedGap (n column : Nat) : (nestedGap n column).levels = n := by
  induction n generalizing column with
  | zero => rfl
  | succ n ih => exact congrArg (· + 1) (ih (column + 1))

theorem height_nestedGap (n column : Nat) : (nestedGap n column).height = n := by
  induction n generalizing column with
  | zero => rfl
  | succ n ih => exact congrArg (· + 1) (ih (column + 1))

/-- One more parenthesis opens in the gap. -/
theorem exists_tokens_nested (n column : Nat) : ∃ after,
    (nested (n + 1) column).tokens =
      (nestedGap n column).tokens ++ (openingAt (column + n)).1 :: after := by
  induction n generalizing column with
  | zero => exact ⟨_, rfl⟩
  | succ n ih =>
    obtain ⟨after, h⟩ := ih (column + 1)
    refine ⟨after ++ [(closingAt (column + 2 * (n + 1) + 2)).1], ?_⟩
    show (openingAt column).1 :: ((nested (n + 1) (column + 1)).tokens ++ _) = _
    rw [h, List.append_assoc, List.cons_append, Nat.add_right_comm column 1 n, Nat.add_assoc]
    rfl

theorem integral_nested (b : Bindings) (n column : Nat) : (nested n column).Integral b := by
  induction n generalizing column with
  | zero => rfl
  | succ n ih => exact ih (column + 1)

theorem exact_nested (b : Bindings) (n column : Nat) : (nested n column).exact b = 1 := by
  induction n generalizing column with
  | zero => rfl
  | succ n ih => exact ih (column + 1)

theorem exact_of_mem_parts_nested (b : Bindings) (n column : Nat) :
    ∀ p ∈ (nested n column).parts b, p.exact = 1 := by
  induction n generalizing column with
  | zero =>
    intro p hp
    obtain rfl := List.mem_singleton.mp hp
    rfl
  | succ n ih =>
    intro p hp
    rcases List.mem_append.mp hp with hp | hp
    · exact ih (column + 1) p hp
    · obtain rfl := List.mem_singleton.mp hp
      exact exact_nested b n (column + 1)

theorem wellFormed_nested (n column : Nat) :
    ∀ t ∈ (nested n column).tokens, t.WellFormed := by
  induction n generalizing column with
  | zero => simp [nested, Phrase.tokens, oneAt, Token.WellFormed]
  | succ n ih =>
    intro t ht
    rcases List.mem_cons.mp ht with rfl | ht
    · simp [openingAt, Token.WellFormed]
    · rcases List.mem_append.mp ht with ht | ht
      · exact ih (column + 1) t ht
      · obtain rfl := List.mem_singleton.mp ht
        simp [closingAt, Token.WellFormed]

end Grammar

/-- One parenthesis more than there may be is a slip. -/
theorem exists_slip_nested {n : Nat} (hn : n = maxNesting) (stop : LineEnd) : ∃ x : Slip, x.Fits ∧
    x.tokens = (nested (n + 1) 1).tokens ++ [stop.1] ∧
    x.diagnostic = .nesting (openingAt (1 + n)).1 := by
  obtain ⟨after, h⟩ := exists_tokens_nested n 1
  have hnext : OperandNext (nestedGap n 1).tokens maxNesting :=
    ⟨.print, nestedGap n 1, rfl, hn ▸ Nat.le_of_eq (height_nestedGap n 1),
      hn ▸ levels_nestedGap n 1⟩
  obtain ⟨x, hx, hxt, hxd⟩ := hnext.fits (t := (openingAt (1 + n)).1) rfl (after ++ [stop.1])
  exact ⟨x, hx, by rw [hxt, h, List.append_assoc, List.cons_append], hxd⟩

namespace Work

/-- The literal `1` in one parenthesis more than there may be: all parts fit, but the statement ends
at the last parenthesis that opens. -/
theorem statement_nested {n : Nat} (hn : n = maxNesting) :
    (nested (n + 1) 1).Integral {} ∧ (nested (n + 1) 1).exact {} = 1 ∧
    (∀ p ∈ (nested (n + 1) 1).parts {}, Fits p.exact) ∧
    (∃ s', statement (fun _ => .int 0) ⟨.ofPhrase (nested (n + 1) 1), {}⟩ =
      .error (.fatal (.nesting (openingAt (1 + n)).1)) ⟨s', {}⟩) ∧
    ¬∃ bindings s' new,
      statement (fun _ => .int 0) ⟨.ofPhrase (nested (n + 1) 1), {}⟩ = .ok .more ⟨s', bindings⟩ ∧
        s'.queue = new ∧ ExactResult {} .print (nested (n + 1) 1) bindings new := by
  have hs := Script.sound_ofPhrase (wellFormed_nested (n + 1) 1)
  obtain ⟨x, hx, hxt, hxd⟩ := exists_slip_nested hn endOfPhrase
  have ha : (Script.ofPhrase (nested (n + 1) 1)).ahead = x.tokens ++ [] := by
    rw [Script.ahead_ofPhrase, hxt]
    simp [Line.tokens, Content.tokens, Lead.tokens, Remark.tokens]
  obtain ⟨s', new, he, -⟩ := Eval.statement_slip hs (.ofBindings {}) x ha hx
  rw [hxd] at he
  replace he := statement_error.mpr he
  refine ⟨integral_nested _ _ _, exact_nested _ _ _, fun p hp => ?_, ⟨s', he⟩, ?_⟩
  · rw [exact_of_mem_parts_nested _ _ _ p hp]
    decide
  · rintro ⟨bindings, s'', new, hok, -⟩
    rw [he] at hok
    cases hok

/-- **An integral expression that is nested too deeply has no value**, even if all its parts fit. -/
theorem nested_too_deep :
    (nested (maxNesting + 1) 1).Integral {} ∧ (nested (maxNesting + 1) 1).exact {} = 1 ∧
    (∀ p ∈ (nested (maxNesting + 1) 1).parts {}, Fits p.exact) ∧
    (∃ s', statement (fun _ => .int 0) ⟨.ofPhrase (nested (maxNesting + 1) 1), {}⟩ =
      .error (.fatal (.nesting (openingAt (1 + maxNesting)).1)) ⟨s', {}⟩) ∧
    ¬∃ bindings s' new, statement (fun _ => .int 0) ⟨.ofPhrase (nested (maxNesting + 1) 1), {}⟩ =
          .ok .more ⟨s', bindings⟩ ∧
        s'.queue = new ∧ ExactResult {} .print (nested (maxNesting + 1) 1) bindings new :=
  statement_nested rfl

end Work

end LineCalc
