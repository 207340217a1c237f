import LineCalc.Proofs.Reading.Pattern

/-!
# The patterns of the rules

What each rule finds at the start of a text is what its pattern takes there. A pattern in which a
row of characters could be cut short for the sake of what follows gains nothing by it, because what
follows never starts with such a character.
-/

namespace LineCalc

namespace Pattern

/-- Characters with a property, as many as can be, and at least one. -/
def run (p : Char → Bool) : Pattern := both (one p) (many p)

/-- A given character. -/
def char (c : Char) : Pattern := one (· == c)

/-- A given word. -/
def word : List Char → Pattern
  | [] => nothing
  | c :: cs => both (char c) (word cs)

/-- A pattern or nothing. -/
def optional (a : Pattern) : Pattern := either a nothing

/-- A line feed, a carriage return, or the two together. -/
def lineBreak : Pattern := either (both (char '\r') (char '\n')) (either (char '\n') (char '\r'))

/-- Two percent signs and the rest of the line. -/
def comment : Pattern := both (char '%') (both (char '%') (many fun c => !isLineBreak c))

/-- A zero, one of two marks, and digits. -/
def marked (mark mark' : Char) (digit : Char → Bool) : Pattern :=
  both (char '0') (both (one fun c => c == mark || c == mark') (run digit))

/-- A number in base 16 or 8. -/
def nondecimal : Pattern := either (marked 'x' 'X' isHexDigit) (marked 'o' 'O' isOctalDigit)

/-- A point and digits. -/
def fraction : Pattern := both (char '.') (run Char.isDigit)

/-- Digits with or without a point. -/
def mantissa : Pattern :=
  either (both (run Char.isDigit) (optional (both (char '.') (many Char.isDigit)))) fraction

/-- An `e`, perhaps a sign, and digits. -/
def exponent : Pattern :=
  both (one fun c => c == 'e' || c == 'E')
    (both (optional (one fun c => c == '+' || c == '-')) (run Char.isDigit))

/-- Digits with or without a point, and an exponent. -/
def scientific : Pattern := both mantissa exponent

/-- A point with digits on at least one side. -/
def float : Pattern :=
  either (both (run Char.isDigit) (both (char '.') (many Char.isDigit))) fraction

/-- Decimal digits. -/
def number : Pattern := run Char.isDigit

/-- The keyword of a function. -/
def keyword : Pattern :=
  both (either (word ['s', 'i', 'n']) (either (word ['c', 'o', 's'])
    (either (word ['e', 'x', 'p']) (word ['l', 'o', 'g'])))) wordEnd

/-- Any name. -/
def freeName : Pattern := both (one startsName) (many continuesName)

/-- The name of a memory slot. -/
def slotName : Pattern :=
  both (word ['M', 'E', 'M', '_']) (both (either (word ['1', '0'])
    (one ['1', '2', '3', '4', '5', '6', '7', '8', '9'].contains)) wordEnd)

end Pattern

/-- The pattern of names. -/
def NameGrammar.pattern : NameGrammar → Pattern
  | .free => .freeName
  | .memorySlots => .slotName

/-- The pattern of a rule. -/
def Rule.pattern (names : NameGrammar) : Rule → Pattern
  | .whiteSpace => .run isBlank
  | .newLine => .lineBreak
  | .comment => .comment
  | .nondecimal => .nondecimal
  | .scientific => .scientific
  | .float => .float
  | .number => .number
  | .func => .keyword
  | .ident => names.pattern
  | .equals => .char '='
  | .plus => .char '+'
  | .minus => .char '-'
  | .asterisk => .char '*'
  | .slash => .char '/'
  | .leftParen => .char '('
  | .rightParen => .char ')'

/-! ### Lengths, part by part -/

theorem runLength_cons (p : Char → Bool) (c : Char) (rest : List Char) :
    runLength p (c :: rest) = if p c then 1 + runLength p rest else 0 := by
  rw [runLength, List.takeWhile_cons]
  split
  · exact Nat.add_comm _ _
  · rfl

/-- A row of characters with a property ends in front of one that does not have it. -/
theorem runLength_append {p : Char → Bool} {w rest : List Char} (hw : ∀ c ∈ w, p c = true)
    (hrest : ∀ c, rest.head? = some c → p c = false) : runLength p (w ++ rest) = w.length := by
  have hnil : rest.takeWhile p = [] := by
    cases rest with
    | nil => rfl
    | cons c rest => rw [List.takeWhile_cons, if_neg (by simp [hrest c rfl])]
  rw [runLength, List.takeWhile_append_of_pos hw, hnil, List.append_nil]

/-- A character with a property, and what is found behind it. -/
def after (p : Char → Bool) (k : List Char → Option Nat) : List Char → Option Nat
  | [] => none
  | c :: rest => if p c then (k rest).map (1 + ·) else none

theorem exists_of_after_eq_some {p : Char → Bool} {k : List Char → Option Nat} {text : List Char}
    {n : Nat} (h : after p k text = some n) :
    ∃ c rest i, text = c :: rest ∧ p c = true ∧ k rest = some i ∧ n = 1 + i := by
  cases text with
  | nil => cases h
  | cons c rest =>
    rw [after] at h
    split at h
    · rename_i hc
      obtain ⟨i, hi, rfl⟩ := Option.map_eq_some_iff.mp h
      exact ⟨c, rest, i, rfl, hc, hi, rfl⟩
    · cases h

theorem exists_of_signLength?_eq_some {c : Char} {text : List Char} {n : Nat}
    (h : signLength? c text = some n) : ∃ rest, text = c :: rest ∧ n = 1 := by
  cases text with
  | nil => cases h
  | cons d rest =>
    rw [signLength?] at h
    split at h
    · rename_i hd
      cases h
      exact ⟨rest, by rw [hd], rfl⟩
    · cases h

/-- A point and the digits behind it, if there are any. -/
def pointLength? : List Char → Option Nat :=
  after (· == '.') fun rest => some (runLength Char.isDigit rest)

/-- A point and at least one digit. -/
def fractionLength? : List Char → Option Nat :=
  after (· == '.') fun rest => positive? (runLength Char.isDigit rest)

/-- The sign of an exponent. -/
def signLength : List Char → Nat
  | c :: _ => if c = '+' ∨ c = '-' then 1 else 0
  | [] => 0

section

variable {text : List Char}

theorem fractionLength?_of_pos (h : 0 < runLength Char.isDigit text) :
    fractionLength? text = none := by
  cases text with
  | nil => rfl
  | cons c rest =>
    rw [runLength_cons] at h
    split at h
    · rename_i hc
      refine if_neg ?_
      rw [beq_iff_eq]
      rintro rfl
      exact absurd hc (by decide)
    · cases h

theorem pointedLength?_of_zero (h : runLength Char.isDigit text = 0) :
    pointedLength? text = fractionLength? text := by
  unfold pointedLength?
  dsimp only
  rw [h, List.drop_zero]
  cases text with
  | nil => rfl
  | cons c rest =>
    by_cases hc : c = '.'
    · subst hc
      simp only [fractionLength?, after, beq_self_eq_true, if_true, true_and, positive?,
        Nat.zero_add]
      split <;> rfl
    · simp [fractionLength?, after, hc]

theorem pointedLength?_of_pos (h : 0 < runLength Char.isDigit text) :
    pointedLength? text = (pointLength? (text.drop (runLength Char.isDigit text))).map
      (runLength Char.isDigit text + ·) := by
  unfold pointedLength?
  dsimp only
  split
  · rename_i rest hd
    rw [hd, if_neg (by omega), Nat.add_assoc]
    rfl
  · rename_i hne
    cases hd : text.drop (runLength Char.isDigit text) with
    | nil => rfl
    | cons c rest =>
      rw [pointLength?, after, if_neg]
      · rfl
      · rw [beq_iff_eq]
        rintro rfl
        exact hne rest hd

theorem wordLength?_eq_some_iff {w : List Char} {n : Nat} : wordLength? w text = some n ↔
    w <+: text ∧ Text.wordEndsBefore (text.drop w.length) = true ∧ n = w.length := by
  rw [wordLength?, ← List.isPrefixOf_iff_prefix]
  cases w.isPrefixOf text <;> cases Text.wordEndsBefore (text.drop w.length) <;>
    simp [eq_comm]

/-- Of two words that end there the text starts with one only. -/
theorem wordLength?_unique {w w' : List Char} {n m : Nat} (hw : ∀ c ∈ w', Text.isWordChar c = true)
    (h : wordLength? w text = some n) (h' : wordLength? w' text = some m) : m ≤ n := by
  obtain ⟨-, hend, rfl⟩ := wordLength?_eq_some_iff.mp h
  obtain ⟨⟨rest, rfl⟩, -, rfl⟩ := wordLength?_eq_some_iff.mp h'
  refine Nat.le_of_not_lt fun hlt => ?_
  rw [List.drop_append_of_le_length (Nat.le_of_lt hlt), List.drop_eq_getElem_cons hlt,
    List.cons_append, Text.wordEndsBefore, hw _ (List.getElem_mem hlt)] at hend
  cases hend

end

/-! ### Signs, rows and lines -/

namespace Pattern

variable {a b : Pattern} {p : Char → Bool} {k : List Char → Option Nat} {text : List Char}
variable {n m : Nat}

theorem takes_after (p : Char → Bool) (h : ∀ rest, b.Takes rest (k rest)) (text : List Char) :
    (both (one p) b).Takes text (after p k text) := by
  cases text with
  | nil => exact takes_cons_none rfl
  | cons c rest =>
    rw [after]
    split
    · rename_i hc
      exact (h rest).cons hc
    · rename_i hc
      exact takes_cons_none (Bool.eq_false_iff.mpr hc)

theorem takes_char (c : Char) (text : List Char) : (char c).Takes text (signLength? c text) := by
  have h := takes_one (· == c) text
  cases text with
  | nil => exact h
  | cons d rest =>
    simp only [List.head?_cons, Option.any_some, beq_iff_eq] at h
    exact h

theorem takes_run (p : Char → Bool) (text : List Char) :
    (run p).Takes text (positive? (runLength p text)) := by
  have h := takes_after p (takes_many p) text
  cases text with
  | nil => exact h
  | cons c rest =>
    rw [after, Option.map_some] at h
    by_cases hc : p c = true
    · rw [if_pos hc] at h
      rw [runLength_cons, if_pos hc, positive?, if_neg (by omega)]
      exact h
    · rw [if_neg hc] at h
      rw [runLength_cons, if_neg hc]
      exact h

theorem takes_comment (text : List Char) : comment.Takes text (commentLength? text) := by
  have h := takes_after (· == '%')
    (takes_after (· == '%') (takes_many fun c => !isLineBreak c)) text
  have he : commentLength? text = after (· == '%') (after (· == '%')
      fun rest => some (runLength (fun c => !isLineBreak c) rest)) text := by
    match text with
    | [] => rfl
    | [c] => simp [commentLength?, after]
    | c :: d :: rest =>
      by_cases hc : c = '%' <;> by_cases hd : d = '%' <;>
        simp [commentLength?, after, hc, hd, ← Nat.add_assoc]
  exact he ▸ h

theorem takes_lineBreak (text : List Char) : lineBreak.Takes text (lineBreakLength? text) := by
  have h := (takes_after (· == '\r') (takes_char '\n') text).either
    ((takes_char '\n' text).either (takes_char '\r' text) fun n m hn hm => by
      obtain ⟨-, -, rfl⟩ := exists_of_signLength?_eq_some hn
      obtain ⟨-, -, rfl⟩ := exists_of_signLength?_eq_some hm
      exact Nat.le_refl 1) fun n m hn hm => by
    obtain ⟨_, _, i, -, -, -, rfl⟩ := exists_of_after_eq_some hn
    obtain hm | ⟨-, hm⟩ := Option.or_eq_some_iff.mp hm <;>
      obtain ⟨-, -, rfl⟩ := exists_of_signLength?_eq_some hm <;> exact Nat.le_add_right 1 i
  -- the same three cases, spelled as a match on the first two characters
  have he : lineBreakLength? text = (after (· == '\r') (signLength? '\n') text).or
      ((signLength? '\n' text).or (signLength? '\r' text)) := by
    match text with
    | [] => rfl
    | [c] =>
      by_cases hr : c = '\r'
      · subst hr; rfl
      · by_cases hn : c = '\n' <;> simp [lineBreakLength?, after, signLength?, hr, hn]
    | c :: d :: rest =>
      by_cases hr : c = '\r'
      · subst hr
        by_cases hd : d = '\n'
        · subst hd; rfl
        · simp [lineBreakLength?, after, signLength?, hd]
      · by_cases hn : c = '\n' <;> simp [lineBreakLength?, after, signLength?, hr, hn]
  exact he ▸ h

/-! ### Numbers -/

theorem takes_marked (mark mark' : Char) (digit : Char → Bool) (text : List Char) :
    (marked mark mark' digit).Takes text (after (· == '0')
      (after (fun c => c == mark || c == mark') fun rest => positive? (runLength digit rest))
        text) :=
  takes_after _ (takes_after _ (takes_run digit)) text

theorem takes_nondecimal (text : List Char) : nondecimal.Takes text (nondecimalLength? text) := by
  have h := (takes_marked 'x' 'X' isHexDigit text).either (takes_marked 'o' 'O' isOctalDigit text)
    fun n m hn hm => by
      -- there is only one mark
      obtain ⟨_, rest, _, rfl, -, hi, -⟩ := exists_of_after_eq_some hn
      obtain ⟨c, _, _, rfl, hx, -⟩ := exists_of_after_eq_some hi
      obtain ⟨_, rest, _, he, -, hi, -⟩ := exists_of_after_eq_some hm
      obtain ⟨d, _, _, rfl, ho, -⟩ := exists_of_after_eq_some hi
      obtain rfl : c = d := (List.cons.inj (List.cons.inj he).2).1
      simp only [Bool.or_eq_true, beq_iff_eq] at hx ho
      rcases hx with rfl | rfl <;> rcases ho with ho | ho <;> cases ho
  have he : nondecimalLength? text =
      (after (· == '0') (after (fun c => c == 'x' || c == 'X')
        fun rest => positive? (runLength isHexDigit rest)) text).or
      (after (· == '0') (after (fun c => c == 'o' || c == 'O')
        fun rest => positive? (runLength isOctalDigit rest)) text) := by
    match text with
    | [] => rfl
    | [c] => simp [nondecimalLength?, after]
    | c :: d :: rest =>
      by_cases hc : c = '0'
      · subst hc
        by_cases hx : d = 'x' ∨ d = 'X'
        · have ho : ¬(d = 'o' ∨ d = 'O') := by rcases hx with rfl | rfl <;> decide
          simp [nondecimalLength?, after, hx, ho, Function.comp_def, ← Nat.add_assoc]
        · by_cases ho : d = 'o' ∨ d = 'O' <;>
            simp [nondecimalLength?, after, hx, ho, Function.comp_def, ← Nat.add_assoc]
      · simp [nondecimalLength?, after, hc]
  exact he ▸ h

/-- Where a row of digits is cut short, no pattern follows that starts with a point. -/
theorem lengths_point_of_lt (hm : m < runLength Char.isDigit text) :
    (both (char '.') b).lengths (text.drop m) = [] := by
  have ho : (many Char.isDigit).Over Char.isDigit := fun _ h => h
  obtain ⟨c, rest, hd, hc⟩ := exists_drop_of_lt ho (mem_lengths_many.mpr (Nat.le_refl _)) hm
  rw [hd]
  refine (takes_cons_none ?_).lengths_eq_nil
  refine beq_false_of_ne ?_
  rintro rfl
  exact absurd hc (by decide)

theorem takes_point (text : List Char) :
    (both (char '.') (many Char.isDigit)).Takes text (pointLength? text) :=
  takes_after _ (takes_many Char.isDigit) text

theorem takes_fraction (text : List Char) : fraction.Takes text (fractionLength? text) :=
  takes_after _ (takes_run Char.isDigit) text

/-- Digits and what is found behind them, or else a point and digits. Where the row of digits is cut
short, no character is found behind it. -/
theorem takes_digits_or_fraction (text : List Char) (hb : ∀ rest, b.Takes rest (k rest))
    (hcut : ∀ m < runLength Char.isDigit text, ∀ j ∈ b.lengths (text.drop m),
      j = 0 ∧ ∃ i, k (text.drop (runLength Char.isDigit text)) = some i) :
    (either (both (run Char.isDigit) b) fraction).Takes text
      (if 0 < runLength Char.isDigit text then
        (k (text.drop (runLength Char.isDigit text))).map (runLength Char.isDigit text + ·)
      else fractionLength? text) := by
  have hrun := takes_run Char.isDigit text
  by_cases h : 0 < runLength Char.isDigit text
  · rw [positive?, if_neg (by omega)] at hrun
    have hcut' : ∀ n, some (runLength Char.isDigit text) = some n →
        ∀ m ∈ (run Char.isDigit).lengths text, m < n → ∀ j ∈ b.lengths (text.drop m),
          ∃ i, k (text.drop n) = some i ∧ m + j ≤ n + i := by
      rintro n ⟨⟩ m - hlt j hj
      obtain ⟨rfl, i, hi⟩ := hcut m hlt j hj
      exact ⟨i, hi, by omega⟩
    have hw := hrun.both hcut' fun n _ => hb (text.drop n)
    have hnone := fractionLength?_of_pos h
    have hf := hw.either (takes_fraction text) fun n m _ hm => by
      rw [hnone] at hm
      cases hm
    rw [hnone, Option.or_none] at hf
    rw [if_pos h]
    exact hf
  · -- without digits in front only a fraction can match
    have hzero : runLength Char.isDigit text = 0 := by omega
    rw [hzero, positive?, if_pos rfl] at hrun
    have hw := hrun.both (b := b) (k := fun n => k (text.drop n)) (fun n hn => by cases hn)
      fun n hn => by cases hn
    rw [if_neg h]
    exact hw.either (takes_fraction text) fun n m hn => by cases hn

theorem takes_float (text : List Char) : float.Takes text (pointedLength? text) := by
  have h := takes_digits_or_fraction text takes_point fun m hm j hj => by
    rw [lengths_point_of_lt hm] at hj
    cases hj
  rcases Nat.eq_zero_or_pos (runLength Char.isDigit text) with hz | hp
  · rw [hz, if_neg (Nat.lt_irrefl 0), ← pointedLength?_of_zero hz] at h
    exact h
  · rw [if_pos hp, ← pointedLength?_of_pos hp] at h
    exact h

theorem takes_mantissa (text : List Char) :
    mantissa.Takes text ((pointedLength? text).or (digitsLength? text)) := by
  have hpoint : ∀ rest, (optional (both (char '.') (many Char.isDigit))).Takes rest
      ((pointLength? rest).or (some 0)) := by
    intro rest
    refine (takes_point rest).either (takes_nothing rest) fun n m _ hm => ?_
    cases hm
    exact Nat.zero_le n
  have h := takes_digits_or_fraction text hpoint fun m hm j hj => by
    constructor
    · obtain hj | hj := mem_lengths_either.mp hj
      · rw [lengths_point_of_lt hm] at hj
        cases hj
      · exact List.mem_singleton.mp hj
    · cases pointLength? (text.drop (runLength Char.isDigit text)) <;> exact ⟨_, rfl⟩
  unfold digitsLength? positive?
  rcases Nat.eq_zero_or_pos (runLength Char.isDigit text) with hz | hp
  · rw [hz, if_neg (Nat.lt_irrefl 0), ← pointedLength?_of_zero hz] at h
    rw [hz, if_pos rfl, Option.or_none]
    exact h
  · rw [if_pos hp] at h
    rw [if_neg (by omega), pointedLength?_of_pos hp]
    cases hd : pointLength? (text.drop (runLength Char.isDigit text)) <;> rw [hd] at h <;> exact h

theorem takes_sign (text : List Char) :
    (optional (one fun c => c == '+' || c == '-')).Takes text (some (signLength text)) := by
  have h := (takes_one (fun c => c == '+' || c == '-') text).either (takes_nothing text)
    fun n m _ hm => by cases hm; exact Nat.zero_le n
  cases text with
  | nil => exact h
  | cons c rest =>
    simp only [List.head?_cons, Option.any_some, Bool.or_eq_true, beq_iff_eq] at h
    rw [signLength]
    split at h <;> rename_i hc
    · rwa [if_pos hc]
    · rwa [if_neg hc]

theorem takes_exponent (text : List Char) : exponent.Takes text (exponentLength? text) := by
  have hd : ∀ rest, (both (optional (one fun c => c == '+' || c == '-')) (run Char.isDigit)).Takes
      rest ((digitsLength? (rest.drop (signLength rest))).map (signLength rest + ·)) := by
    intro rest
    refine (takes_sign rest).both (k := fun n => digitsLength? (rest.drop n))
      (fun n hn m _ hlt j hj => ?_) fun n _ => takes_run _ _
    -- where the sign is left out, no digit comes next
    cases hn
    cases rest with
    | nil => cases hlt
    | cons c rest =>
      rw [signLength] at hlt
      split at hlt
      · rename_i hc
        obtain rfl : m = 0 := by omega
        have hnil : (run Char.isDigit).lengths (c :: rest) = [] := by
          refine (takes_cons_none ?_).lengths_eq_nil
          rcases hc with rfl | rfl <;> rfl
        rw [List.drop_zero, hnil] at hj
        cases hj
      · cases hlt
  have h := takes_after (fun c => c == 'e' || c == 'E') hd text
  have he : exponentLength? text = after (fun c => c == 'e' || c == 'E')
      (fun rest => (digitsLength? (rest.drop (signLength rest))).map (signLength rest + ·)) text := by
    match text with
    | [] => rfl
    | [c] => simp [exponentLength?, after, digitsLength?, signLength, runLength, positive?]
    | c :: d :: rest =>
      by_cases hc : c = 'e' ∨ c = 'E'
      · by_cases hd : d = '+' ∨ d = '-' <;>
          simp [exponentLength?, after, signLength, hc, hd, Function.comp_def, ← Nat.add_assoc]
      · simp [exponentLength?, after, hc]
  exact he ▸ h

theorem takes_scientific (text : List Char) : scientific.Takes text (scientificLength? text) := by
  -- no exponent starts inside a mantissa: it has neither letter in it
  have ho : mantissa.Over fun c => c.isDigit || c == '.' := by
    have hd : ∀ c, Char.isDigit c = true → (c.isDigit || c == '.') = true := fun c h => by
      rw [h]
      rfl
    have hp : ∀ c, (c == '.') = true → (c.isDigit || c == '.') = true := fun c h => by simp [h]
    exact ⟨⟨⟨hd, hd⟩, ⟨hp, hd⟩, trivial⟩, hp, hd, hd⟩
  have h := (takes_mantissa text).both (b := exponent) (k := fun n => exponentLength? (text.drop n))
    (fun n hn m _ hlt j hj => by
      obtain ⟨c, rest, hd, hc⟩ := exists_drop_of_lt ho (hn ▸ takes_mantissa text).mem hlt
      have hnil : exponent.lengths (c :: rest) = [] := by
        refine (takes_cons_none (Bool.eq_false_iff.mpr fun he => ?_)).lengths_eq_nil
        have he : c = 'e' ∨ c = 'E' := by simpa using he
        rcases he with rfl | rfl <;> exact absurd hc (by decide)
      rw [hd, hnil] at hj
      cases hj) fun n _ => takes_exponent _
  have he : scientificLength? text = ((pointedLength? text).or (digitsLength? text)).bind
      fun n => (exponentLength? (text.drop n)).map (n + ·) := by
    have hm : (pointedLength? text <|> digitsLength? text) =
        (pointedLength? text).or (digitsLength? text) := by cases pointedLength? text <;> rfl
    unfold scientificLength?
    rw [hm]
    refine congrArg (Option.bind _) (funext fun n => ?_)
    cases exponentLength? (text.drop n) <;> rfl
  exact he ▸ h

/-! ### Words -/

theorem mem_lengths_word {w : List Char} {n : Nat} :
    n ∈ (word w).lengths text ↔ w <+: text ∧ n = w.length := by
  induction w generalizing text n with
  | nil => simp [word, lengths]
  | cons c w ih =>
    rw [word, mem_lengths_both]
    constructor
    · rintro ⟨i, hi, j, hj, rfl⟩
      obtain ⟨hc, rfl⟩ := mem_lengths_one.mp hi
      obtain ⟨hw, rfl⟩ := ih.mp hj
      cases text with
      | nil => cases hc
      | cons d rest =>
        obtain rfl : d = c := by simpa using hc
        exact ⟨List.cons_prefix_cons.mpr ⟨rfl, hw⟩, Nat.add_comm _ _⟩
    · rintro ⟨hw, rfl⟩
      cases text with
      | nil => cases List.prefix_nil.mp hw
      | cons d rest =>
        obtain ⟨rfl, hrest⟩ := List.cons_prefix_cons.mp hw
        exact ⟨1, mem_lengths_one.mpr ⟨beq_self_eq_true c, rfl⟩, w.length, ih.mpr ⟨hrest, rfl⟩,
          Nat.add_comm _ _⟩

/-- A pattern for words that end there takes the one with which the text starts. -/
theorem takes_of_words {ws : List (List Char)} (hw : ws.all (·.all Text.isWordChar) = true)
    (h : ∀ n, n ∈ a.lengths text ↔
      (∃ w ∈ ws, w <+: text ∧ n = w.length) ∧ Text.wordEndsBefore (text.drop n) = true) :
    a.Takes text (ws.findSome? fun w => wordLength? w text) := by
  have hw : ∀ w ∈ ws, ∀ c ∈ w, Text.isWordChar c = true := fun w hm =>
    List.all_eq_true.mp (List.all_eq_true.mp hw w hm)
  have hmem : ∀ n, n ∈ a.lengths text ↔ ∃ w ∈ ws, wordLength? w text = some n := by
    simp only [h, wordLength?_eq_some_iff]
    refine fun n => ⟨?_, ?_⟩
    · rintro ⟨⟨w, hm, hp, rfl⟩, he⟩
      exact ⟨w, hm, hp, he, rfl⟩
    · rintro ⟨w, hm, hp, he, rfl⟩
      exact ⟨⟨w, hm, hp, rfl⟩, he⟩
  cases ho : ws.findSome? fun w => wordLength? w text with
  | none =>
    refine takes_none (List.eq_nil_iff_forall_not_mem.mpr fun n hn => ?_)
    obtain ⟨w, hm, hn⟩ := (hmem n).mp hn
    rw [List.findSome?_eq_none_iff.mp ho w hm] at hn
    cases hn
  | some n =>
    obtain ⟨w, hm, hn⟩ := List.exists_of_findSome?_eq_some ho
    -- two words that both end where they stand are as long as each other
    have hone : ∀ m ∈ a.lengths text, m = n := by
      intro m hm'
      obtain ⟨w', hw', hm'⟩ := (hmem m).mp hm'
      exact Nat.le_antisymm (wordLength?_unique (hw w' hw') hn hm')
        (wordLength?_unique (hw w hm) hm' hn)
    refine ⟨?_, fun m hm => ⟨n, rfl, Nat.le_of_eq (hone m hm)⟩⟩
    cases hl : a.lengths text with
    | nil =>
      have := (hmem n).mpr ⟨w, hm, hn⟩
      rw [hl] at this
      cases this
    | cons m ms => rw [List.head?_cons, hone m (by rw [hl]; exact List.mem_cons_self)]

theorem mem_lengths_ending {n : Nat} : n ∈ (both a wordEnd).lengths text ↔
    n ∈ a.lengths text ∧ Text.wordEndsBefore (text.drop n) = true := by
  simp only [mem_lengths_both, mem_lengths_wordEnd]
  constructor
  · rintro ⟨i, hi, j, ⟨he, rfl⟩, rfl⟩
    exact ⟨hi, he⟩
  · rintro ⟨hn, he⟩
    exact ⟨n, hn, 0, ⟨he, rfl⟩, rfl⟩

theorem mem_lengths_assoc {c : Pattern} {n : Nat} :
    n ∈ (both a (both b c)).lengths text ↔ n ∈ (both (both a b) c).lengths text := by
  simp only [mem_lengths_both]
  constructor
  · rintro ⟨i, hi, _, ⟨j, hj, k, hk, rfl⟩, rfl⟩
    exact ⟨i + j, ⟨i, hi, j, hj, rfl⟩, k, List.drop_drop ▸ hk, (Nat.add_assoc i j k).symm⟩
  · rintro ⟨_, ⟨i, hi, j, hj, rfl⟩, k, hk, rfl⟩
    exact ⟨i, hi, j + k, ⟨j, hj, k, List.drop_drop ▸ hk, rfl⟩, Nat.add_assoc i j k⟩

theorem takes_keyword (text : List Char) : keyword.Takes text (keywordLength? text) := by
  have hall : Func.all.map (·.keyword.toList) =
      [['s', 'i', 'n'], ['c', 'o', 's'], ['e', 'x', 'p'], ['l', 'o', 'g']] := by decide
  have h : keywordLength? text =
      (Func.all.map (·.keyword.toList)).findSome? fun w => wordLength? w text := by
    rw [List.findSome?_map]
    rfl
  rw [h, hall]
  refine takes_of_words rfl fun n => ?_
  rw [keyword, mem_lengths_ending]
  simp only [mem_lengths_either, mem_lengths_word, List.mem_cons, List.not_mem_nil, or_false,
    exists_eq_or_imp, exists_eq_left]

theorem mem_lengths_word_both {u : List Char} {vs : List (List Char)} {n : Nat}
    (h : ∀ t k, k ∈ b.lengths t ↔ ∃ v ∈ vs, v <+: t ∧ k = v.length) :
    n ∈ (both (word u) b).lengths text ↔ ∃ w ∈ vs.map (u ++ ·), w <+: text ∧ n = w.length := by
  rw [mem_lengths_both]
  constructor
  · rintro ⟨i, hi, k, hk, rfl⟩
    obtain ⟨⟨rest, rfl⟩, rfl⟩ := mem_lengths_word.mp hi
    rw [List.drop_left] at hk
    obtain ⟨v, hv, hp, rfl⟩ := (h rest k).mp hk
    exact ⟨u ++ v, List.mem_map_of_mem hv, (List.prefix_append_right_inj u).mpr hp,
      List.length_append.symm⟩
  · rintro ⟨w, hw, hp, rfl⟩
    obtain ⟨v, hv, rfl⟩ := List.mem_map.mp hw
    obtain ⟨rest, rfl⟩ := (List.prefix_append u v).trans hp
    refine ⟨u.length, mem_lengths_word.mpr ⟨List.prefix_append u rest, rfl⟩, v.length, ?_,
      List.length_append⟩
    rw [List.drop_left]
    exact (h rest _).mpr ⟨v, hv, (List.prefix_append_right_inj u).mp hp, rfl⟩

theorem takes_slotName (text : List Char) :
    slotName.Takes text (slotNames.findSome? fun name => wordLength? name.toList text) := by
  -- the ten slots are one word with ten endings
  have hall : slotNames.map String.toList = [['1'], ['2'], ['3'], ['4'], ['5'], ['6'], ['7'],
      ['8'], ['9'], ['1', '0']].map (['M', 'E', 'M', '_'] ++ ·) := by decide
  have h : slotNames.findSome? (fun name => wordLength? name.toList text) =
      (slotNames.map String.toList).findSome? fun w => wordLength? w text := by
    rw [List.findSome?_map]
    rfl
  have hnumber : ∀ t k, k ∈ (either (word ['1', '0'])
      (one ['1', '2', '3', '4', '5', '6', '7', '8', '9'].contains)).lengths t ↔
      ∃ v ∈ [['1'], ['2'], ['3'], ['4'], ['5'], ['6'], ['7'], ['8'], ['9'], ['1', '0']],
        v <+: t ∧ k = v.length := by
    intro t k
    rw [mem_lengths_either, mem_lengths_word, mem_lengths_one]
    cases t with
    | nil => simp
    | cons c rest =>
      simp only [List.mem_cons, List.not_mem_nil, or_false, exists_eq_or_imp, exists_eq_left,
        List.cons_prefix_cons, List.nil_prefix, and_true, List.head?_cons, Option.any_some,
        List.contains_cons, List.contains_nil, Bool.or_false, Bool.or_eq_true, beq_iff_eq,
        List.length_cons, List.length_nil, Nat.zero_add]
      grind
  rw [h, hall]
  refine takes_of_words rfl fun n => ?_
  rw [← mem_lengths_word_both hnumber, slotName, mem_lengths_assoc, mem_lengths_ending]

theorem takes_freeName (text : List Char) :
    freeName.Takes text (NameGrammar.free.length? text) := by
  have h := takes_after startsName (takes_many continuesName) text
  cases text with
  | nil => exact h
  | cons c rest => exact h

end Pattern

open Pattern in
/-- Each rule finds what its pattern takes. -/
theorem Rule.takes_pattern (names : NameGrammar) (rule : Rule) (text : List Char) :
    (rule.pattern names).Takes text (rule.length? names text) := by
  cases rule with
  | whiteSpace => exact takes_run isBlank text
  | newLine => exact takes_lineBreak text
  | comment => exact takes_comment text
  | nondecimal => exact takes_nondecimal text
  | scientific => exact takes_scientific text
  | float => exact takes_float text
  | number => exact takes_run Char.isDigit text
  | func => exact takes_keyword text
  | ident =>
    cases names with
    | free => exact takes_freeName text
    | memorySlots => exact takes_slotName text
  | equals | plus | minus | asterisk | slash | leftParen | rightParen => exact takes_char _ text

end LineCalc
