import LineCalc.Proofs.Reading.Longest
import Mathlib.Data.Nat.Digits.Defs

/-!
# Literals are exact

An integer literal is read as the value of its digits in its base, whatever their number and case,
or refused as a whole if that value does not fit. A literal with a point or an exponent is never
refused.
-/

namespace LineCalc

/-! ### Digits -/

/-- The number that a digit stands for, in either case. What is no digit comes out as 16. -/
def digitNumber (c : Char) : Nat :=
  ['0', '1', '2', '3', '4', '5', '6', '7', '8', '9', 'a', 'b', 'c', 'd', 'e', 'f'].idxOf c.toLower

/-- The positional value of digits in a base, the first of them being the highest. -/
def positional (base : Nat) (digits : List Char) : Nat :=
  Nat.ofDigits base (digits.map digitNumber).reverse

/-- These are digits in the base, and there is one. -/
def AreDigits (base : Nat) (digits : List Char) : Prop :=
  digits ≠ [] ∧ ∀ c ∈ digits, digitNumber c < base

theorem toNat_of_isHexDigit {c : Char} (h : isHexDigit c = true) : c.toNat < 128 := by
  simp only [isHexDigit, Char.isDigit, Bool.or_eq_true, Bool.and_eq_true, decide_eq_true_eq,
    Char.le_def, ge_iff_le, UInt32.le_iff_toNat_le] at h
  change ((48 ≤ c.toNat ∧ c.toNat ≤ 57) ∨ (65 ≤ c.toNat ∧ c.toNat ≤ 70)) ∨
    (97 ≤ c.toNat ∧ c.toNat ≤ 102) at h
  omega

theorem digit_cases {c : Char} (h : isHexDigit c = true) : digitValue c = digitNumber c ∧
    digitNumber c < 16 ∧ (c.isDigit = true → digitNumber c < 10) ∧
      (isOctalDigit c = true → digitNumber c < 8) := by
  have hall : ∀ n < 128, isHexDigit (Char.ofNat n) = true →
      digitValue (Char.ofNat n) = digitNumber (Char.ofNat n) ∧ digitNumber (Char.ofNat n) < 16 ∧
        ((Char.ofNat n).isDigit = true → digitNumber (Char.ofNat n) < 10) ∧
          (isOctalDigit (Char.ofNat n) = true → digitNumber (Char.ofNat n) < 8) := by
    decide +kernel
  have := hall c.toNat (toNat_of_isHexDigit h)
  rw [Char.ofNat_toNat] at this
  exact this h

theorem isHexDigit_of_isDigit {c : Char} (h : c.isDigit = true) : isHexDigit c = true := by
  rw [isHexDigit, h]
  rfl

theorem isDigit_of_isOctalDigit {c : Char} (h : isOctalDigit c = true) : c.isDigit = true := by
  simp only [isOctalDigit, Char.isDigit, Bool.and_eq_true, decide_eq_true_eq, Char.le_def,
    ge_iff_le, UInt32.le_iff_toNat_le] at *
  change 48 ≤ c.toNat ∧ c.toNat ≤ 55 at h
  change 48 ≤ c.toNat ∧ c.toNat ≤ 57
  omega

/-- The value that is computed digit by digit is the positional one. -/
theorem digitsValue_eq_positional (base : Nat) {digits : List Char}
    (h : ∀ c ∈ digits, isHexDigit c = true) : digitsValue base digits = positional base digits := by
  have hmap : digits.map digitNumber = digits.map digitValue :=
    List.map_congr_left fun c hc => (digit_cases (h c hc)).1.symm
  calc digitsValue base digits
      = digits.reverse.foldr (fun c value => base * value + digitValue c) 0 :=
        List.foldl_eq_foldr_reverse
    _ = (digits.map digitValue).reverse.foldr (fun d value => d + base * value) 0 := by
        rw [← List.map_reverse, List.foldr_map]
        simp only [Nat.add_comm]
    _ = positional base digits := by
        rw [positional, hmap, Nat.ofDigits_eq_foldr]
        rfl

/-! ### The forms of literals -/

namespace Pattern

variable {p : Char → Bool} {lexeme rest : List Char}

theorem Matches.of_run (h : (run p).Matches lexeme rest) :
    lexeme ≠ [] ∧ ∀ c ∈ lexeme, p c = true := by
  have ho : (run p).Over p := ⟨fun _ h => h, fun _ h => h⟩
  have hs : (run p).Starts fun c => p c = true := fun _ h => h
  refine ⟨?_, h.of_over ho⟩
  obtain ⟨c, cs, rfl, -⟩ := h.exists_start hs
  exact List.cons_ne_nil c cs

theorem Matches.of_marked {mark mark' : Char} {digit : Char → Bool}
    (h : (marked mark mark' digit).Matches lexeme rest) : ∃ c digits, lexeme = '0' :: c :: digits ∧
      (c = mark ∨ c = mark') ∧ digits ≠ [] ∧ ∀ d ∈ digits, digit d = true := by
  cases h with
  | both hzero h =>
    cases h with
    | both hmark h =>
      cases hzero with
      | one hzero =>
        cases hmark with
        | @one _ c hmark =>
          obtain rfl := beq_iff_eq.mp hzero
          exact ⟨c, _, rfl, by simpa using hmark, h.of_run⟩

/-- A decimal literal: digits with or without a point, and perhaps an exponent. -/
def decimal : Pattern := both mantissa (optional exponent)

theorem Matches.decimal_of_float (h : float.Matches lexeme rest) : decimal.Matches lexeme rest := by
  rw [← List.append_nil lexeme]
  refine .both ?_ (.right (.nothing rest))
  cases h with
  | left h =>
    cases h with
    | both hw hf => exact .left (.both hw (.left hf))
  | right h => exact .right h

theorem Matches.decimal_of_scientific (h : scientific.Matches lexeme rest) :
    decimal.Matches lexeme rest := by
  cases h with
  | both hm he => exact .both hm (.left he)

end Pattern

/-! ### What is read -/

namespace Reading

variable {names : NameGrammar} {source : String} {before after : List Chunk} {chunk : Chunk}
variable {item : Except Diagnostic Token}

/-- The text of the chunk, as a whole, is read as the item, and nothing else is read from it:
together with the blanks in front of it, the chunk makes up one reading. -/
def Reads (names : NameGrammar) (source : String) (before : List Chunk) (chunk : Chunk)
    (after : List Chunk) (item : Except Diagnostic Token) : Prop :=
  source.toList = before.flatMap Chunk.chars ++ chunk.chars ++ after.flatMap Chunk.chars ∧
  ∃ front blanks back, ofText names source = front ++ ⟨blanks ++ [chunk], item⟩ :: back ∧
    front.flatMap chunks ++ blanks = before ∧ (∀ blank ∈ blanks, blank.item? = none) ∧
    back.flatMap chunks = after

theorem exists_readFrom (hi : chunk.item? = some item) (stop : Cursor) (blanks : List Chunk)
    (hb : ∀ blank ∈ blanks, blank.item? = none) :
    ∃ front blanks' back, readFrom [] stop blanks (before ++ chunk :: after) =
        front ++ ⟨blanks' ++ [chunk], item⟩ :: back ∧
      front.flatMap chunks ++ blanks' = blanks ++ before ∧
      (∀ blank ∈ blanks', blank.item? = none) ∧ back.flatMap chunks = after := by
  -- blanks in front of the chunk are its own, unless something is read in between
  induction before generalizing stop blanks with
  | nil =>
    refine ⟨[], blanks, readFrom [] chunk.cursor [] after, ?_, by simp, hb, ?_⟩
    · rw [List.nil_append, readFrom, hi]
      exact readFrom_eq_append [⟨blanks ++ [chunk], item⟩] chunk.cursor [] after
    · rw [flatMap_chunks_readFrom, List.nil_append]
  | cons b before ih =>
    rw [List.cons_append, readFrom]
    cases hbi : b.item? with
    | some first =>
      obtain ⟨front, blanks', back, hr, hf, hrest⟩ := ih b.cursor [] (by simp)
      refine ⟨⟨blanks ++ [b], first⟩ :: front, blanks', back, ?_, ?_, hrest⟩
      · refine (readFrom_eq_append [⟨blanks ++ [b], first⟩] b.cursor [] _).trans ?_
        rw [hr]
        rfl
      · rw [List.flatMap_cons, List.append_assoc, hf]
        simp
    | none =>
      have hb' : ∀ blank ∈ blanks ++ [b], blank.item? = none := by
        intro blank hm
        rcases List.mem_append.mp hm with hm | hm
        · exact hb blank hm
        · rwa [List.mem_singleton.mp hm]
      obtain ⟨front, blanks', back, hr, hf, hrest⟩ := ih b.cursor _ hb'
      exact ⟨front, blanks', back, hr, by rw [hf]; simp, hrest⟩

/-- Every chunk that means something is read as what it means. -/
theorem reads_of_item? (hcut : Chunk.cut names source.toList = before ++ chunk :: after)
    (hi : chunk.item? = some item) : Reads names source before chunk after item := by
  refine ⟨?_, ?_⟩
  · rw [← Chunk.flatMap_chars_cut names source.toList, hcut]
    simp
  · obtain ⟨front, blanks, back, hr, hf, hrest⟩ := exists_readFrom hi {} [] (by simp)
    exact ⟨front, blanks, back, by rw [ofText, ofChunks, hcut, hr], hf, hrest⟩

theorem spells_of_cut {rule : Rule} {lexeme : List Char} {cursor : Cursor}
    (hcut : Chunk.cut names source.toList = before ++ ⟨.matched rule lexeme, cursor⟩ :: after)
    (hrule : rule.isNumeric = true) : rule.Spells lexeme := by
  obtain ⟨-, rest, hlength, -⟩ := (Chunk.sliceOf_of_cut_eq hcut).lexeme rule lexeme rfl
  have h := Rule.spells_of_length? hrule hlength
  rwa [List.take_left] at h

/-- An integer literal is read exactly: as its value if that fits, and otherwise it is refused. -/
def Exact (kind : TokenKind) (lexeme : String) (span : Span) (value : Nat)
    (item : Except Diagnostic Token) : Prop :=
  (value ≤ 2 ^ 63 - 1 → ∃ n : Int64, n.toInt = value ∧
    item = .ok ⟨kind, .number (.int n), lexeme, span⟩) ∧
  (2 ^ 63 - 1 < value → item = .error ⟨.literalRange lexeme, span⟩)

theorem exact_tokenOf (kind : TokenKind) (lexeme : String) (span : Span) {base : Nat}
    {digits : List Char} (h : ∀ c ∈ digits, isHexDigit c = true) :
    Exact kind lexeme span (positional base digits)
      (Chunk.tokenOf lexeme span kind ((integerValue? base digits).map .number)) := by
  rw [integerValue?, digitsValue_eq_positional base h]
  change Exact kind lexeme span _ (Chunk.tokenOf lexeme span kind
    ((if positional base digits < 2 ^ 63 then _ else none : Option Number).map .number))
  refine ⟨fun hle => ?_, fun hlt => ?_⟩
  · have hlt : positional base digits < 2 ^ 63 := by omega
    rw [if_pos hlt]
    exact ⟨_, Int64.toInt_ofNat_of_lt hlt, rfl⟩
  · rw [if_neg (by omega)]
    rfl

/-- **Integer literals are read exactly or refused, and others are never refused.** What the rule
for decimal integers finds are digits, and what the rule for marked integers finds is a zero, a mark
for base 16 or 8, and digits in that base. Either is read as the positional value of its digits,
however many there are, or if this does not fit, it is refused as a whole. With a point or an
exponent there are digits on at least one side of the point, and what is read is a float. -/
theorem literals_exact (names : NameGrammar) (source : String) :
    (∀ before lexeme cursor after,
      Chunk.cut names source.toList = before ++ ⟨.matched .number lexeme, cursor⟩ :: after →
      AreDigits 10 lexeme ∧ ∃ item,
        Reads names source before ⟨.matched .number lexeme, cursor⟩ after item ∧
        Exact .number (String.ofList lexeme) cursor.span (positional 10 lexeme) item) ∧
    (∀ before lexeme cursor after,
      Chunk.cut names source.toList = before ++ ⟨.matched .nondecimal lexeme, cursor⟩ :: after →
      ∃ base mark digits, lexeme = '0' :: mark :: digits ∧
        (base = 16 ∧ (mark = 'x' ∨ mark = 'X') ∨ base = 8 ∧ (mark = 'o' ∨ mark = 'O')) ∧
        AreDigits base digits ∧ ∃ item,
          Reads names source before ⟨.matched .nondecimal lexeme, cursor⟩ after item ∧
          Exact .nondecimal (String.ofList lexeme) cursor.span (positional base digits) item) ∧
    ∀ rule kind, (rule, kind) = (.float, .float) ∨ (rule, kind) = (.scientific, .scientific) →
      ∀ before lexeme cursor after,
      Chunk.cut names source.toList = before ++ ⟨.matched rule lexeme, cursor⟩ :: after →
      Pattern.decimal.Matches lexeme [] ∧
        Reads names source before ⟨.matched rule lexeme, cursor⟩ after
          (.ok ⟨kind, .number (.float (floatValue lexeme)), String.ofList lexeme, cursor.span⟩) := by
  refine ⟨fun before lexeme cursor after hcut => ?_, fun before lexeme cursor after hcut => ?_,
    fun rule kind hr before lexeme cursor after hcut => ?_⟩
  · obtain ⟨-, hm⟩ := spells_of_cut hcut rfl
    obtain ⟨hne, hd⟩ := hm.of_run
    have hx : ∀ c ∈ lexeme, isHexDigit c = true := fun c hc => isHexDigit_of_isDigit (hd c hc)
    exact ⟨⟨hne, fun c hc => (digit_cases (hx c hc)).2.2.1 (hd c hc)⟩, _, reads_of_item? hcut rfl,
      exact_tokenOf .number _ _ hx⟩
  · obtain ⟨-, hm⟩ := spells_of_cut hcut rfl
    cases hm with
    | left hm =>
      obtain ⟨mark, digits, rfl, hmark, hne, hx⟩ := hm.of_marked
      have hbase : ¬(mark = 'o' ∨ mark = 'O') := by rcases hmark with rfl | rfl <;> decide
      have hi := reads_of_item? hcut rfl
      simp only [nondecimalValue?, if_neg hbase] at hi
      exact ⟨16, mark, digits, rfl, .inl ⟨rfl, hmark⟩,
        ⟨hne, fun c hc => (digit_cases (hx c hc)).2.1⟩, _, hi, exact_tokenOf .nondecimal _ _ hx⟩
    | right hm =>
      obtain ⟨mark, digits, rfl, hmark, hne, ho⟩ := hm.of_marked
      have hx : ∀ c ∈ digits, isHexDigit c = true := fun c hc =>
        isHexDigit_of_isDigit (isDigit_of_isOctalDigit (ho c hc))
      have hi := reads_of_item? hcut rfl
      simp only [nondecimalValue?, if_pos hmark] at hi
      exact ⟨8, mark, digits, rfl, .inr ⟨rfl, hmark⟩,
        ⟨hne, fun c hc => (digit_cases (hx c hc)).2.2.2 (ho c hc)⟩, _, hi,
        exact_tokenOf .nondecimal _ _ hx⟩
  · rcases hr with hr | hr <;> cases hr
    · exact ⟨(spells_of_cut hcut rfl).2.decimal_of_float, reads_of_item? hcut rfl⟩
    · exact ⟨(spells_of_cut hcut rfl).2.decimal_of_scientific, reads_of_item? hcut rfl⟩

end Reading

end LineCalc
