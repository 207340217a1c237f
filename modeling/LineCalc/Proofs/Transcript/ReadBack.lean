import LineCalc.Proofs.Printing.Floats
import LineCalc.Proofs.Printing.Numbers
import LineCalc.Proofs.Reading.Literals
import LineCalc.Proofs.Transcript.OneRow

/-!
# Printed numbers read back

A number that is printed is a text, and this text can be run. It is a literal, with a minus in front
if the number is negative, so that its value is the literal's, or the negative of it. Only the least
integer does not come back: the literal would have to be greater than all integers.
-/

namespace LineCalc

open Grammar Move

variable {names : NameGrammar} {w : List Char}

/-! ### Digits -/

namespace Decimal

theorem digitsValue_digits (n : Nat) : digitsValue 10 (digits n) = n := by
  have hstep : ∀ c ∈ digits n, ∀ value,
      10 * value + digitValue c = 10 * value + (c.toNat - '0'.toNat) := by
    intro c hc value
    rw [digitValue, if_pos (allDigits_digits n c hc)]
  calc digitsValue 10 (digits n)
      = Nat.ofDigitChars 10 (digits n) 0 :=
        List.foldl_ext _ _ 0 fun value c hc => hstep c hc value
    _ = n := Nat.ofDigitChars_toDigits (by decide) (by decide)

theorem matches_run {row rest : List Char} (h : AllDigits row) (hne : row ≠ []) :
    (Pattern.run Char.isDigit).Matches row rest := by
  obtain ⟨c, cs, rfl⟩ := List.exists_cons_of_ne_nil hne
  obtain ⟨hc, hcs⟩ := List.forall_mem_cons.mp h
  exact .both (.one hc _) (.many hcs rest)

theorem spells_digits (n : Nat) : Rule.number.Spells (digits n) :=
  ⟨rfl, matches_run (allDigits_digits n) Nat.toDigits_ne_nil⟩

theorem Printed.spells {text whole fraction : List Char} (h : Printed text whole fraction)
    (hf : fraction ≠ []) : Rule.float.Spells text := by
  rw [h.text, if_neg (by simpa using hf)]
  exact ⟨rfl, .left (.both (matches_run h.whole h.whole_ne_nil)
    (.both (u := ['.']) (.one rfl _) (.many h.fraction [])))⟩

end Decimal

/-- A number is found as a whole where nothing follows it. -/
theorem Rule.Spells.first? {rule : Rule} (h : rule.Spells w) (names : NameGrammar) :
    Rule.first? names w = some (rule, w.length) := by
  obtain ⟨m, hm, hle⟩ := h.exists_length? names []
  rw [List.append_nil] at hm
  obtain rfl : m = w.length := Nat.le_antisymm (Rule.length_of_length? hm) hle
  refine Rule.first?_eq_some hm (fun r k hr => Rule.length_of_length? hr) ?_
  rintro rfl
  cases h.1

/-- So it is a number of one kind only. -/
theorem Rule.Spells.unique {rule rule' : Rule} (h : rule.Spells w) (h' : rule'.Spells w) :
    rule = rule' :=
  (Prod.mk.inj (Option.some.inj ((h.first? .free).symm.trans (h'.first? .free)))).1

theorem Rule.first?_minus (names : NameGrammar) (w : List Char) :
    Rule.first? names ('-' :: w) = some (.minus, 1) := by
  cases names <;> rfl

/-! ### A literal alone -/

/-- A text with a minus in front, or without. -/
def signed (negative : Bool) (w : List Char) : List Char := if negative then '-' :: w else w

/-- The chunks of a literal, with a minus in front or without. -/
theorem Chunk.exists_cut_signed (negative : Bool) {rule : Rule}
    (h : Rule.first? names w = some (rule, w.length)) :
    ∃ place place', cut names (signed negative w) =
      (if negative then [⟨.matched .minus ['-'], place⟩] else []) ++ [⟨.matched rule w, place'⟩] := by
  have hcut : ∀ place, ∃ place', cutFrom names [] place 0 w = [⟨.matched rule w, place'⟩] := by
    intro place
    have hw : Rule.first? names (w ++ []) = some (rule, w.length) := by rwa [List.append_nil]
    have hmatched := cutFrom_matched hw place
    rw [List.append_nil] at hmatched
    exact ⟨_, hmatched⟩
  cases negative with
  | false =>
    obtain ⟨place', h'⟩ := hcut {}
    exact ⟨{}, place', h'⟩
  | true =>
    have hminus := cutFrom_matched (w := ['-']) (Rule.first?_minus names w) {}
    obtain ⟨place', h'⟩ := hcut (Cursor.collapse {} |>.advanceOver ['-'])
    rw [h'] at hminus
    exact ⟨_, place', hminus⟩

/-- So one item is read from it, behind the minus or alone. -/
theorem Reading.exists_ofText_signed (negative : Bool) {rule : Rule} {kind : TokenKind}
    {payload : Option Payload} (h : Rule.first? names w = some (rule, w.length))
    (hm : Chunk.meaning? w rule = some (kind, payload)) :
    ∃ place place' stop, ofText names (String.ofList (signed negative w)) =
      (if negative then [⟨[⟨.matched .minus ['-'], place⟩],
        .ok ⟨.minus, .none, "-", place.span⟩⟩] else []) ++
      [⟨[⟨.matched rule w, place'⟩], Chunk.tokenOf (String.ofList w) place'.span kind payload⟩,
        ⟨[], .ok (endToken stop)⟩] := by
  obtain ⟨place, place', hcut⟩ := Chunk.exists_cut_signed negative h
  have hitem : Chunk.item? ⟨.matched rule w, place'⟩ =
      some (Chunk.tokenOf (String.ofList w) place'.span kind payload) := by
    show (Chunk.meaning? w rule).map _ = _
    rw [hm]
    rfl
  have hminus : Chunk.item? ⟨.matched .minus ['-'], place⟩ =
      some (.ok ⟨.minus, .none, "-", place.span⟩) := rfl
  refine ⟨place, place', place', ?_⟩
  rw [ofText, String.toList_ofList, hcut]
  cases negative with
  | false => simp [ofChunks, readFrom, hitem]
  | true => simp [ofChunks, readFrom, hitem, hminus]

/-! ### What comes of a literal -/

section

variable (session : Session) {rule : Rule} {kind : TokenKind}

/-- The session makes these outputs of the text, and its bindings stay as they are. -/
def Session.PutsOut (session : Session) (source : String) (os : List Output) (completed : Bool) :
    Prop :=
  (session.run source).1.outputs = os ∧ (session.run source).1.completed = completed ∧
    (session.run source).2.bindings = session.bindings

/-- A literal, with a minus in front or without, puts out its value, or the negative of it. -/
theorem Session.run_signed (negative : Bool) {value result : Number}
    (h : Rule.first? session.config.names w = some (rule, w.length))
    (hm : Chunk.meaning? w rule = some (kind, some (.number value))) (hk : kind.isLiteral = true)
    (hv : (if negative then value.neg else .ok value) = .ok result) :
    session.PutsOut (String.ofList (signed negative w)) [.value result] true := by
  obtain ⟨config, b⟩ := session
  obtain ⟨place, place', stop, hread⟩ := Reading.exists_ofText_signed negative h hm
  -- the tokens are those of one operand, so the whole text is one line
  let literal : Phrase .primary :=
    .literal ⟨⟨kind, .number value, String.ofList w, place'.span⟩, value, hk, rfl⟩
  let minus : Sign := ⟨⟨.minus, .none, "-", place.span⟩, rfl⟩
  let u : Phrase .operand := if negative then .sign minus (.primary literal) else .primary literal
  let last : LineEnd := ⟨Reading.endToken stop, rfl⟩
  obtain ⟨hlegal, htokens⟩ : Reading.diagnostics (Reading.ofText config.names _) = [] ∧
      Reading.tokens (Reading.ofText config.names _) = (Line.full (.ofOperand u) last).tokens := by
    rw [hread]
    cases negative <;> exact ⟨rfl, rfl⟩
  obtain ⟨hunbound, hfaults, hvalue, hheight⟩ : u.unbound ⟨b, config.standIn⟩ = [] ∧
      u.faults ⟨b, config.standIn⟩ = [] ∧ u.value ⟨b, config.standIn⟩ = result ∧
      u.height ≤ maxNesting := by
    cases negative with
    | false =>
      obtain rfl := Except.ok.inj hv
      exact ⟨rfl, rfl, rfl, Nat.zero_le _⟩
    | true =>
      have hv : value.neg = .ok result := hv
      refine ⟨rfl, ?_, ?_, show 1 ≤ maxNesting by decide⟩
      · simp [u, literal, minus, Phrase.faults, Phrase.value, Sign.result, hv, faultOf]
      · simp [u, literal, minus, Phrase.value, Sign.result, hv, Scope.settled]
  have hlast : last.1.kind = .endOfInput := rfl
  obtain ⟨t, hrun⟩ := Session.run_line config b (.ofOperand u) hlast htokens hlegal hheight
  rw [Line.outputs_ofOperand hunbound hfaults, hvalue] at hrun
  rw [PutsOut, hrun]
  exact ⟨rfl, rfl, Content.bindings_ofOperand _ u⟩

/-- What is refused is reported when an operand is looked for behind the minus. Then all is read. -/
theorem Script.acts_refused {t stop : Token} (ht : t.kind ≠ .endOfInput) (d : Diagnostic)
    (taken taken' taken'' : List Chunk) :
    let s := (ofReadings [⟨taken, .ok t⟩, ⟨taken', .error d⟩, ⟨taken'', .ok stop⟩]).acts
      [.clear, .look 0, .count, .look 0, .look 1, .look 0, .enter, .take t, .look 0, .look 0]
    s.queue = [.diagnostic d] ∧ s.unread = [] := by
  simp [acts, act, fillFrom, absorb, cleared, counted, ofReadings, report, logged, shift, ht]

/-- A literal that is refused leaves the minus in front of it without an operand. -/
theorem Session.run_signed_refused (h : Rule.first? session.config.names w = some (rule, w.length))
    (hm : Chunk.meaning? w rule = some (kind, none)) :
    ∃ place place', session.PutsOut (String.ofList (signed true w))
      [.diagnostic ⟨.literalRange (String.ofList w), place⟩,
        .diagnostic ⟨.unexpected .endOfInput, place'⟩] session.config.keepGoing := by
  obtain ⟨config, b⟩ := session
  obtain ⟨place, place', stop, hread⟩ := Reading.exists_ofText_signed true h hm
  -- the literal leaves no token, so the minus stands alone in front of the end of the input
  let minus : Sign := ⟨⟨.minus, .none, "-", place.span⟩, rfl⟩
  let last : LineEnd := ⟨Reading.endToken stop, rfl⟩
  let x : Slip := .stray .print (.term (.operand (.sign minus .here))) .operand last.1
    (.unexpected last.1) []
  have hx : x.Fits := by
    have hlevel : 1 ≤ maxNesting := by decide
    have hshown : Lead.ShownBy .print x.tokens :=
      ⟨minus.token, last.1, [], rfl, rfl, by simp [minus], by simp [minus]⟩
    exact ⟨hlevel, hlevel, .inr ⟨rfl, rfl⟩, hshown⟩
  suffices hruns : ∃ t, Runs config.keepGoing config.standIn b
      (.ofText config.names (String.ofList (signed true w)))
      [.diagnostic ⟨.literalRange (String.ofList w), place'.span⟩, .diagnostic (.unexpected last.1)]
      config.keepGoing b t by
    obtain ⟨t, ht⟩ := hruns
    refine ⟨place'.span, last.1.span, ?_⟩
    rw [PutsOut, Session.run_eq_of_runs ht]
    exact ⟨rfl, rfl, rfl⟩
  let front : List Reading := [⟨[⟨.matched .minus ['-'], place⟩], .ok minus.token⟩,
    ⟨[⟨.matched rule w, place'⟩], .error ⟨.literalRange (String.ofList w), place'.span⟩⟩]
  let back : List Reading := [⟨[], .ok last.1⟩]
  have htext : Script.ofText config.names (String.ofList (signed true w)) =
      .ofReadings (front ++ back) := congrArg Script.ofReadings hread
  have hs := Script.sound_ofText config.names (String.ofList (signed true w))
  rw [htext] at hs ⊢
  have hrow : OneRow front last back (.ofReadings (front ++ back)) :=
    ⟨hs, ⟨rfl, rfl, rfl, rfl⟩, rfl, rfl, .endOfInput rfl, by simp [front, minus, TokenKind.endsLine]⟩
  obtain ⟨hqueue, hunread⟩ :
      ((Script.ofReadings (front ++ back)).acts (x.moves ⟨b, config.standIn⟩)).queue =
        [.diagnostic ⟨.literalRange (String.ofList w), place'.span⟩] ∧
      ((Script.ofReadings (front ++ back)).acts (x.moves ⟨b, config.standIn⟩)).unread = [] :=
    Script.acts_refused (by simp [minus]) _ _ _ _
  obtain ⟨t, hruns⟩ := hrow.runs_slip config.keepGoing config.standIn b hx rfl
  have hnone : (if config.keepGoing then (Reading.diagnostics []).map Output.diagnostic else []) = [] :=
    ite_self _
  rw [hqueue, hunread, hnone] at hruns
  exact ⟨t, hruns⟩

end

/-! ### Printed numbers -/

theorem ofList_signed (negative : Bool) (w : List Char) :
    String.ofList (signed negative w) = (if negative then "-" else "") ++ String.ofList w := by
  cases negative
  · simp [signed]
  · rw [signed, if_pos rfl, if_pos rfl, ← List.singleton_append, String.ofList_append]

theorem Number.text_int (n : Int64) : (Number.int n).text =
    String.ofList (signed (decide (n.toInt < 0)) (Decimal.digits n.toInt.natAbs)) := by
  rw [text, Int.toString_eq_repr, Int.repr_eq_if, ofList_signed, Decimal.digits,
    ← Nat.repr_eq_ofList_toDigits]
  by_cases h : n.toInt < 0
  · have habs : (-n.toInt).toNat = n.toInt.natAbs := by omega
    simp [h, Int.not_le.mpr h, habs]
  · have habs : n.toInt.toNat = n.toInt.natAbs := by omega
    simp [h, Int.not_lt.mp h, habs]

/-- A finite float is printed with a point and no exponent. -/
theorem Number.exists_text_float {x : Float} (h : x.isFinite = true) : ∃ digits,
    (Number.float x).text = String.ofList (signed (Binary64.isNegative x) digits) ∧
      Rule.float.Spells digits := by
  obtain ⟨d, hd⟩ : ∃ d, floatText x = signText x ++ Decimal.positional 1 d :=
    ⟨_, by rw [floatText, if_pos h]⟩
  obtain ⟨fraction, hprinted, hlength⟩ := Decimal.exists_printed 1 d
  refine ⟨Decimal.positional 1 d, ?_, hprinted.spells (List.length_pos_iff.mp hlength)⟩
  rw [text, hd, signText, signed]
  split <;> rfl

theorem Decimal.integerValue?_digits {k : Nat} (h : k < 2 ^ 63) :
    integerValue? 10 (digits k) = some (.int (Int64.ofNat k)) := by
  rw [integerValue?, digitsValue_digits]
  exact if_pos h

/-- All integers but the least have an absolute value that fits. -/
theorem Number.natAbs_lt {n : Int64} (hn : n ≠ Int64.minValue) : n.toInt.natAbs < 2 ^ 63 := by
  have hne : n.toInt ≠ -2 ^ 63 := fun h =>
    hn (Int64.toInt_inj.mp (h.trans Int64.toInt_minValue.symm))
  have hle := n.le_toInt
  have hlt := n.toInt_lt
  omega

/-- Behind a minus, if the number is negative, this is the number. -/
theorem Number.value_signed {n : Int64} (hn : n ≠ Int64.minValue) :
    (if decide (n.toInt < 0) then (Number.int (Int64.ofNat n.toInt.natAbs)).neg
      else .ok (.int (Int64.ofNat n.toInt.natAbs))) = .ok (.int n) := by
  have habs := Int64.toInt_ofNat_of_lt (natAbs_lt hn)
  by_cases h : n.toInt < 0
  · have hneg : -(Int64.ofNat n.toInt.natAbs).toInt = n.toInt := by omega
    have hfits : Fits n.toInt := by
      rw [Fits, Int64.toInt_minValue, Int64.toInt_maxValue]
      have hle := n.le_toInt
      omega
    rw [if_pos (decide_eq_true h), neg, hneg, exactly, if_pos hfits, Int64.ofInt_toInt]
  · have hn : Int64.ofNat n.toInt.natAbs = n := Int64.toInt_inj.mp (by omega)
    rw [if_neg (by simpa using h), hn]

/-- **Printed numbers read back as themselves.** Whatever session runs the text of an integer, it puts
out this integer and nothing else. Only the least integer does not come back: its digits are refused,
and the minus in front of them is left without an operand. The text of a finite float is a literal
with a point, and no number of another kind, perhaps with a minus in front. It has a value, which is
the float itself if printing and reading its digits loses nothing. -/
theorem Session.run_printed (session : Session) :
    (∀ n : Int64, n ≠ Int64.minValue →
      session.PutsOut (Number.int n).text [.value (.int n)] true) ∧
    (∃ place place', session.PutsOut (Number.int Int64.minValue).text
      [.diagnostic ⟨.literalRange "9223372036854775808", place⟩,
        .diagnostic ⟨.unexpected .endOfInput, place'⟩] session.config.keepGoing) ∧
    ∀ x : Float, x.isFinite = true → ∃ digits y,
      (Number.float x).text = String.ofList (signed (Binary64.isNegative x) digits) ∧
      Rule.first? session.config.names digits = some (.float, digits.length) ∧
      (∀ rule : Rule, rule.Spells digits ↔ rule = .float) ∧
      session.PutsOut (Number.float x).text [.value (.float y)] true ∧
      (floatValue digits = (if Binary64.isNegative x then -x else x) → y = x) := by
  refine ⟨fun n hn => ?_, ?_, fun x hx => ?_⟩
  · rw [Number.text_int]
    have hm : Chunk.meaning? (Decimal.digits n.toInt.natAbs) .number =
        some (.number, some (.number (.int (Int64.ofNat n.toInt.natAbs)))) := by
      rw [Chunk.meaning?, Decimal.integerValue?_digits (Number.natAbs_lt hn)]
      rfl
    exact session.run_signed _ ((Decimal.spells_digits _).first? _) hm rfl (Number.value_signed hn)
  · have htext : (Number.int Int64.minValue).text =
        String.ofList (signed true (Decimal.digits (2 ^ 63))) := Number.text_int _
    have hdigits : String.ofList (Decimal.digits (2 ^ 63)) = "9223372036854775808" := by decide
    have hm : Chunk.meaning? (Decimal.digits (2 ^ 63)) .number = some (.number, none) := by
      rw [Chunk.meaning?, integerValue?, Decimal.digitsValue_digits]
      rfl
    rw [htext, ← hdigits]
    exact session.run_signed_refused ((Decimal.spells_digits (2 ^ 63)).first? _) hm
  · obtain ⟨digits, htext, hspells⟩ := Number.exists_text_float hx
    let y := if Binary64.isNegative x then -floatValue digits else floatValue digits
    have hv : (if Binary64.isNegative x then (Number.float (floatValue digits)).neg
        else .ok (.float (floatValue digits))) = .ok (.float y) := by
      simp only [y]
      split <;> rfl
    refine ⟨digits, y, htext, hspells.first? _,
      fun rule => ⟨fun hr => hr.unique hspells, fun hr => hr ▸ hspells⟩, ?_, fun hback => ?_⟩
    · rw [htext]
      exact session.run_signed _ (hspells.first? _) rfl rfl hv
    · simp only [y, hback]
      split
      · exact Binary64.neg_neg_float x
      · rfl

/-- For one, minus five reads back, and minus a half. -/
theorem Session.run_printed_half :
    Session.PutsOut {} (Number.int (-5)).text [.value (.int (-5))] true ∧
      Session.PutsOut {} (Number.float (-0.5)).text [.value (.float (-0.5))] true := by
  obtain ⟨hint, -, hfloat⟩ := Session.run_printed {}
  obtain ⟨digits, y, htext, -, -, hrun, hback⟩ := hfloat (-0.5) (by decide)
  have hsigned : signed true digits = signed true ['0', '.', '5'] :=
    (String.ofList_inj.mp htext).symm.trans (by decide +kernel)
  obtain rfl : digits = ['0', '.', '5'] := List.tail_eq_of_cons_eq hsigned
  refine ⟨hint (-5) (by decide), ?_⟩
  rwa [hback rfl] at hrun

end LineCalc
