import LineCalc.Proofs.Reading.Table

/-!
# The first rule finds the longest lexeme

Rules that match at the same place share the first character, so that they are both for numbers or
both for words. Of the rules for numbers, each one finds less than those that are tried before it. A
keyword that matches is as long as the name that starts there, and is tried first.
-/

namespace LineCalc

/-! ### What a lexeme starts with -/

namespace Pattern

/-- Every lexeme of the pattern has a first character, and that one has the property. -/
def Starts (q : Char → Prop) : Pattern → Prop
  | nothing | many _ | wordEnd => False
  | one p => ∀ c, p c = true → q c
  | both a _ => a.Starts q
  | either a b => a.Starts q ∧ b.Starts q

/-- The pattern does not look at what follows its lexemes. -/
def Plain : Pattern → Prop
  | nothing | one _ | many _ => True
  | both a b | either a b => a.Plain ∧ b.Plain
  | wordEnd => False

variable {a : Pattern} {q : Char → Prop} {lexeme rest : List Char}

theorem Matches.exists_start (h : a.Matches lexeme rest) (hs : a.Starts q) :
    ∃ c cs, lexeme = c :: cs ∧ q c := by
  induction h with
  | nothing | many | wordEnd => exact hs.elim
  | one h => exact ⟨_, [], rfl, hs _ h⟩
  | both ha hb iha ihb =>
    obtain ⟨c, cs, rfl, hc⟩ := iha hs
    exact ⟨c, _, rfl, hc⟩
  | left h ih => exact ih hs.1
  | right h ih => exact ih hs.2

theorem Matches.of_plain (h : a.Matches lexeme rest) (hp : a.Plain) (rest' : List Char) :
    a.Matches lexeme rest' := by
  induction h generalizing rest' with
  | nothing => exact .nothing rest'
  | one h => exact .one h rest'
  | many h => exact .many h rest'
  | both ha hb iha ihb => exact .both (iha hp.1 _) (ihb hp.2 rest')
  | left h ih => exact .left (ih hp.1 rest')
  | right h ih => exact .right (ih hp.2 rest')
  | wordEnd => exact hp.elim

end Pattern

namespace Rule

/-- Is this one of the four rules for numbers? -/
def isNumeric : Rule → Bool
  | .nondecimal | .scientific | .float | .number => true
  | _ => false

/-- The last one of the rules whose lexemes start with the same characters. -/
def family : Rule → Rule
  | .nondecimal | .scientific | .float => .number
  | .func => .ident
  | rule => rule

/-- The rules that a first character allows, by the last one of them. -/
def familyOf (c : Char) : Option Rule :=
  if c.isDigit || c == '.' then some .number
  else if startsName c then some .ident
  else match c with
    | ' ' | '\t' => some .whiteSpace
    | '\r' | '\n' => some .newLine
    | '%' => some .comment
    | '=' => some .equals
    | '+' => some .plus
    | '-' => some .minus
    | '*' => some .asterisk
    | '/' => some .slash
    | '(' => some .leftParen
    | ')' => some .rightParen
    | _ => none

variable {names : NameGrammar} {text : List Char} {n m : Nat}

theorem isDigit_of_startsName {c : Char} (h : startsName c = true) : c.isDigit = false := by
  rcases Bool.or_eq_true_iff.mp h with h | h
  · change (decide (c.val ≥ 'A'.val ∧ c.val ≤ 'Z'.val) ||
      (decide (c.val ≥ 'a'.val) && decide (c.val ≤ 'z'.val))) = true at h
    change (decide (c.val ≥ '0'.val) && decide (c.val ≤ '9'.val)) = false
    simp only [Bool.or_eq_true, Bool.and_eq_true, decide_eq_true_eq, Bool.and_eq_false_iff,
      decide_eq_false_iff_not, ge_iff_le, UInt32.le_iff_toNat_le] at *
    change ((65 ≤ c.toNat ∧ c.toNat ≤ 90) ∨ (97 ≤ c.toNat ∧ c.toNat ≤ 122)) at h
    change ¬48 ≤ c.toNat ∨ ¬c.toNat ≤ 57
    omega
  · obtain rfl := beq_iff_eq.mp h
    rfl

theorem familyOf_of_startsName {c : Char} (h : startsName c = true) :
    familyOf c = some .ident := by
  have hn : ¬(c.isDigit || c == '.') = true := by
    rw [isDigit_of_startsName h, Bool.false_or, beq_iff_eq]
    rintro rfl
    exact absurd h (by decide)
  unfold familyOf
  rw [if_neg hn, if_pos h]

theorem starts_pattern (names : NameGrammar) (rule : Rule) :
    (rule.pattern names).Starts fun c => familyOf c = some rule.family := by
  have hsign : ∀ d c : Char, (c == d) = true → familyOf c = familyOf d := fun d c h => by
    rw [beq_iff_eq.mp h]
  have hdigit : ∀ c, Char.isDigit c = true → familyOf c = some .number := fun c h => by
    unfold familyOf
    rw [h]
    rfl
  -- a rule starts with one of a few signs, with a digit, or with what a name starts with
  cases rule with
  | whiteSpace =>
    intro c h
    obtain h | h := Bool.or_eq_true_iff.mp h <;> obtain rfl := beq_iff_eq.mp h <;> rfl
  | newLine => exact ⟨hsign '\r', hsign '\n', hsign '\r'⟩
  | nondecimal => exact ⟨hsign '0', hsign '0'⟩
  | scientific => exact ⟨hdigit, hsign '.'⟩
  | float => exact ⟨hdigit, hsign '.'⟩
  | number => exact hdigit
  | func => exact ⟨hsign 's', hsign 'c', hsign 'e', hsign 'l'⟩
  | ident =>
    cases names with
    | free => exact fun c h => familyOf_of_startsName h
    | memorySlots => exact hsign 'M'
  | comment | equals | plus | minus | asterisk | slash | leftParen | rightParen => exact hsign _

/-- A rule that matches is one that the first character allows. -/
theorem familyOf_of_length? {r : Rule} (h : r.length? names text = some n) :
    ∃ c, text.head? = some c ∧ familyOf c = some r.family := by
  have hmem := (h ▸ r.takes_pattern names text).mem
  obtain ⟨lexeme, rest, rfl, -, hm⟩ := Pattern.mem_lengths_iff.mp hmem
  obtain ⟨c, cs, rfl, hc⟩ := hm.exists_start (r.starts_pattern names)
  exact ⟨c, rfl, hc⟩

theorem family_eq {r r' : Rule} (h : r.length? names text = some n)
    (h' : r'.length? names text = some m) : r.family = r'.family := by
  obtain ⟨c, hc, hf⟩ := familyOf_of_length? h
  obtain ⟨d, hd, hf'⟩ := familyOf_of_length? h'
  obtain rfl : c = d := Option.some.inj (hc.symm.trans hd)
  exact Option.some.inj (hf.symm.trans hf')

/-- The rules of one family, in the order in which they are tried. -/
theorem pairwise_all : all.Pairwise fun r r' => r.family = r'.family →
    (r, r') ∈ [(nondecimal, scientific), (nondecimal, float), (nondecimal, number),
      (scientific, float), (scientific, number), (float, number), (func, ident)] := by decide

/-! ### Rules of one family -/

theorem pointedLength_lt (h : pointedLength? text = some n) (h' : digitsLength? text = some m) :
    m < n := by
  obtain rfl := le_of_positive? h'
  rw [pointedLength?_of_pos (pos_of_positive? h')] at h
  obtain ⟨i, hi, rfl⟩ := Option.map_eq_some_iff.mp h
  obtain ⟨_, _, j, -, -, -, rfl⟩ := exists_of_after_eq_some hi
  omega

theorem mantissaLength_lt (h : scientificLength? text = some n) :
    ∃ m, (pointedLength? text <|> digitsLength? text) = some m ∧ m < n := by
  unfold scientificLength? at h
  obtain ⟨m, hm, hexp⟩ := Option.bind_eq_some_iff.mp h
  obtain ⟨e, he, hn⟩ := Option.bind_eq_some_iff.mp hexp
  have := pos_of_exponentLength? he
  cases hn
  exact ⟨m, hm, by omega⟩

/-- Of a number with a mark, the other rules for numbers find the zero in front of the mark. -/
theorem lengths_of_nondecimal (h : nondecimalLength? text = some n) : 1 < n ∧
    scientificLength? text = none ∧ pointedLength? text = none ∧ digitsLength? text = some 1 := by
  unfold nondecimalLength? at h
  split at h
  · rename_i mark rest
    split at h
    · rename_i hx
      obtain ⟨m, hm, rfl⟩ := Option.map_eq_some_iff.mp h
      refine ⟨Nat.lt_of_lt_of_le Nat.one_lt_two (Nat.le_add_right 2 m), ?_⟩
      rcases hx with rfl | rfl <;> exact ⟨rfl, rfl, rfl⟩
    · split at h
      · rename_i ho
        obtain ⟨m, hm, rfl⟩ := Option.map_eq_some_iff.mp h
        refine ⟨Nat.lt_of_lt_of_le Nat.one_lt_two (Nat.le_add_right 2 m), ?_⟩
        rcases ho with rfl | rfl <;> exact ⟨rfl, rfl, rfl⟩
      · cases h
  · cases h

theorem isWordChar_of_continuesName {c : Char} (h : continuesName c = true) :
    Text.isWordChar c = true := by
  rcases Bool.or_eq_true_iff.mp h with h | h
  · exact Text.isWordChar_of_isAlphanum h
  · obtain rfl := beq_iff_eq.mp h
    decide

theorem continuesName_of_wordEndsBefore {c : Char} {rest : List Char}
    (h : Text.wordEndsBefore rest = true) (hc : rest.head? = some c) : continuesName c = false := by
  cases rest with
  | nil => cases hc
  | cons d rest =>
    obtain rfl := Option.some.inj hc
    refine Bool.eq_false_iff.mpr fun hd => ?_
    rw [Text.wordEndsBefore, isWordChar_of_continuesName hd] at h
    cases h

/-- A name is as long as the word with which the text starts, if that could be a name. -/
theorem runLength_of_word {w rest : List Char} (hw : ∀ c ∈ w, continuesName c = true)
    (hend : Text.wordEndsBefore rest = true) : runLength continuesName (w ++ rest) = w.length :=
  runLength_append hw fun _ => continuesName_of_wordEndsBefore hend

/-- A word that could be a name, and ends there, is the name that starts there. -/
theorem length?_free_of_word {w : List Char} (hs : ∃ c cs, w = c :: cs ∧ startsName c = true)
    (hw : ∀ c ∈ w, continuesName c = true) (h : wordLength? w text = some n) :
    NameGrammar.free.length? text = some n := by
  obtain ⟨⟨rest, rfl⟩, hend, rfl⟩ := wordLength?_eq_some_iff.mp h
  rw [List.drop_left] at hend
  rw [← runLength_of_word hw hend]
  obtain ⟨c, cs, rfl, hs⟩ := hs
  rw [List.cons_append, NameGrammar.length?, if_pos hs, runLength_cons,
    if_pos (hw c List.mem_cons_self)]

theorem startsName_of_slotNames {name : String} (h : name ∈ slotNames) :
    ∃ c cs, name.toList = c :: cs ∧ startsName c = true := by
  simp only [slotNames, List.mem_cons, List.not_mem_nil, or_false] at h
  rcases h with rfl | rfl | rfl | rfl | rfl | rfl | rfl | rfl | rfl | rfl <;>
    exact ⟨_, _, rfl, rfl⟩

theorem continuesName_of_slotNames {name : String} (h : name ∈ slotNames) :
    ∀ c ∈ name.toList, continuesName c = true := by
  have hall : slotNames.all (·.toList.all continuesName) = true := rfl
  exact List.all_eq_true.mp (List.all_eq_true.mp hall name h)

/-- A keyword that ends there is as long as the name that starts there. -/
theorem length_of_keyword (h : keywordLength? text = some n) (h' : names.length? text = some m) :
    m = n := by
  obtain ⟨f, -, hf⟩ := List.exists_of_findSome?_eq_some h
  have hword : ∀ c ∈ f.keyword.toList, continuesName c = true :=
    List.all_eq_true.mp (by cases f <;> rfl)
  cases names with
  | free =>
    have hstart : ∃ c cs, f.keyword.toList = c :: cs ∧ startsName c = true := by
      cases f <;> exact ⟨_, _, rfl, rfl⟩
    have hfree := length?_free_of_word hstart hword hf
    exact Option.some.inj (h'.symm.trans hfree)
  | memorySlots =>
    obtain ⟨name, hname, hm⟩ := List.exists_of_findSome?_eq_some h'
    have hslot := fun c hc => isWordChar_of_continuesName (continuesName_of_slotNames hname c hc)
    exact Nat.le_antisymm (wordLength?_unique hslot hf hm)
      (wordLength?_unique (fun c hc => isWordChar_of_continuesName (hword c hc)) hm hf)

/-- Of two rules that may match at the same place, the later one finds less, or both find the same
word. -/
theorem lt_or_tie {r r' : Rule} (hr : (r, r') ∈ [(nondecimal, scientific), (nondecimal, float),
      (nondecimal, number), (scientific, float), (scientific, number), (float, number),
      (func, ident)])
    (h : r.length? names text = some n) (h' : r'.length? names text = some m) :
    m < n ∨ r = .func ∧ r' = .ident ∧ m = n := by
  -- seven pairs are left; a mantissa is what both scientific and plain numbers start with
  simp only [List.mem_cons, Prod.mk.injEq, List.not_mem_nil, or_false] at hr
  rcases hr with ⟨rfl, rfl⟩ | ⟨rfl, rfl⟩ | ⟨rfl, rfl⟩ | ⟨rfl, rfl⟩ | ⟨rfl, rfl⟩ | ⟨rfl, rfl⟩ |
    ⟨rfl, rfl⟩
  · obtain ⟨-, hn, -, -⟩ := lengths_of_nondecimal h
    cases hn.symm.trans h'
  · obtain ⟨-, -, hn, -⟩ := lengths_of_nondecimal h
    cases hn.symm.trans h'
  · obtain ⟨hlt, -, -, hn⟩ := lengths_of_nondecimal h
    cases hn.symm.trans h'
    exact .inl hlt
  · obtain ⟨k, hk, hlt⟩ := mantissaLength_lt h
    have h' : pointedLength? text = some m := h'
    rw [h'] at hk
    cases hk
    exact .inl hlt
  · obtain ⟨k, hk, hlt⟩ := mantissaLength_lt h
    have h' : digitsLength? text = some m := h'
    cases hp : pointedLength? text with
    | none =>
      rw [hp, h'] at hk
      cases hk
      exact .inl hlt
    | some p =>
      rw [hp] at hk
      cases hk
      exact .inl (Nat.lt_trans (pointedLength_lt hp h') hlt)
  · exact .inl (pointedLength_lt h h')
  · exact .inr ⟨rfl, rfl, length_of_keyword h h'⟩

/-- Of two rules that match at the same place, the later one finds less, or both find the same
word. -/
theorem pairwise_length (names : NameGrammar) (text : List Char) :
    all.Pairwise fun r r' => ∀ n m, r.length? names text = some n →
      r'.length? names text = some m → m < n ∨ r = .func ∧ r' = .ident ∧ m = n :=
  pairwise_all.imp fun hr _ _ h h' => lt_or_tie (hr (family_eq h h')) h h'

/-- Two rules that find as much at the same place are those for keywords and names. -/
theorem eq_of_tie {r r' : Rule} (h : r.length? names text = some n)
    (h' : r'.length? names text = some n) (hne : r ≠ r') :
    r = .func ∧ r' = .ident ∨ r = .ident ∧ r' = .func := by
  have hsplit : ∀ {r r' : Rule} {l l' : List Rule}, all = l ++ r :: l' → r' ∈ l' →
      r.length? names text = some n → r'.length? names text = some n → r = .func ∧ r' = .ident := by
    intro r r' l l' hall hm h h'
    have hp := pairwise_length names text
    rw [hall] at hp
    obtain hlt | ⟨hf, hi, -⟩ :=
      List.rel_of_pairwise_cons (List.pairwise_append.mp hp).2.1 hm n n h h'
    · omega
    · exact ⟨hf, hi⟩
  obtain ⟨l, l', hall⟩ := List.append_of_mem (mem_all r)
  have hm : r' ∈ l ++ r :: l' := hall ▸ mem_all r'
  rcases List.mem_append.mp hm with hm | hm
  · obtain ⟨l₁, l₂, rfl⟩ := List.append_of_mem hm
    rw [List.append_assoc, List.cons_append] at hall
    obtain ⟨hf, hi⟩ := hsplit hall (List.mem_append_right l₂ List.mem_cons_self) h' h
    exact .inr ⟨hi, hf⟩
  · exact .inl (hsplit hall ((List.mem_cons.mp hm).resolve_left (Ne.symm hne)) h h')

/-- No rule finds more than the first one that matches, and if another one finds as much, it finds
the name that is a keyword. -/
theorem le_of_first? {rule r : Rule} (h : first? names text = some (rule, n))
    (hr : r.length? names text = some m) :
    m ≤ n ∧ (m = n → r ≠ rule → rule = .func ∧ r = .ident) := by
  obtain ⟨l, first, l', hall, hfirst, hnone⟩ := List.findSome?_eq_some_iff.mp h
  obtain ⟨k, hk, he⟩ := Option.map_eq_some_iff.mp hfirst
  cases he
  have hm : r ∈ l ++ rule :: l' := hall ▸ mem_all r
  rcases List.mem_append.mp hm with hm | hm
  · cases (Option.map_eq_none_iff.mp (hnone r hm)).symm.trans hr
  · rcases List.mem_cons.mp hm with rfl | hm
    · cases hk.symm.trans hr
      exact ⟨Nat.le_refl _, fun _ hne => absurd rfl hne⟩
    · have hp := pairwise_length names text
      rw [hall] at hp
      rcases List.rel_of_pairwise_cons (List.pairwise_append.mp hp).2.1 hm _ _ hk hr with
        hlt | ⟨hf, hi, rfl⟩
      · exact ⟨Nat.le_of_lt hlt, fun heq => absurd heq (Nat.ne_of_lt hlt)⟩
      · exact ⟨Nat.le_refl _, fun _ _ => ⟨hf, hi⟩⟩

/-- The rule that finds most is the first one that matches, unless it finds the name that is a
keyword. -/
theorem first?_eq_some {rule : Rule} (h : rule.length? names text = some n)
    (hle : ∀ r m, Rule.length? names text r = some m → m ≤ n)
    (hk : rule = .ident → Rule.func.length? names text ≠ some n) :
    first? names text = some (rule, n) := by
  cases hf : first? names text with
  | none =>
    have hnone := List.findSome?_eq_none_iff.mp hf rule (mem_all rule)
    rw [h] at hnone
    cases hnone
  | some found =>
    obtain ⟨r, k⟩ := found
    have hr := length?_of_first? hf
    obtain ⟨hnk, htie⟩ := le_of_first? hf h
    obtain rfl : n = k := Nat.le_antisymm hnk (hle r k hr)
    by_cases hne : rule = r
    · rw [hne]
    · obtain ⟨rfl, hi⟩ := htie rfl hne
      exact absurd hr (hk hi)

/-- What the pattern of a rule describes the rule finds, or more. -/
theorem exists_length?_of_matches {rule : Rule} {w rest : List Char}
    (h : (rule.pattern names).Matches w rest) :
    ∃ m, rule.length? names (w ++ rest) = some m ∧ w.length ≤ m :=
  (rule.takes_pattern names (w ++ rest)).le _ (Pattern.mem_lengths_iff.mpr ⟨w, rest, rfl, rfl, h⟩)

/-- Only keywords and names are looked behind. -/
theorem plain_pattern {rule : Rule} (hf : rule ≠ .func) (hi : rule ≠ .ident) :
    (rule.pattern names).Plain := by
  cases rule with
  | func | ident => contradiction
  | _ =>
    simp [pattern, Pattern.nondecimal, Pattern.marked, Pattern.scientific, Pattern.mantissa,
      Pattern.exponent, Pattern.float, Pattern.number, Pattern.fraction, Pattern.optional,
      Pattern.lineBreak, Pattern.comment, Pattern.run, Pattern.char, Pattern.Plain]

/-! ### Numbers -/

/-- The lexeme is a number of the kind that the rule is for. -/
def Spells (rule : Rule) (lexeme : List Char) : Prop :=
  rule.isNumeric = true ∧ (rule.pattern .free).Matches lexeme []

theorem pattern_of_isNumeric {rule : Rule} (h : rule.isNumeric = true) (names : NameGrammar) :
    rule.pattern names = rule.pattern .free ∧ (rule.pattern .free).Plain := by
  cases rule with
  | nondecimal | scientific | float | number =>
    exact ⟨rfl, plain_pattern (by decide) (by decide)⟩
  | _ => cases h

theorem spells_of_length? {rule : Rule} (hrule : rule.isNumeric = true)
    (h : rule.length? names text = some n) : rule.Spells (text.take n) := by
  obtain ⟨hp, hplain⟩ := pattern_of_isNumeric hrule names
  have hmem := (h ▸ rule.takes_pattern names text).mem
  rw [hp] at hmem
  obtain ⟨lexeme, rest, rfl, rfl, hm⟩ := Pattern.mem_lengths_iff.mp hmem
  rw [List.take_left]
  exact ⟨hrule, hm.of_plain hplain []⟩

/-- Where a text starts with a number, the rule for its kind finds it, or more. -/
theorem Spells.exists_length? {rule : Rule} {lexeme : List Char} (h : rule.Spells lexeme)
    (names : NameGrammar) (rest : List Char) :
    ∃ m, rule.length? names (lexeme ++ rest) = some m ∧ lexeme.length ≤ m := by
  obtain ⟨hrule, hm⟩ := h
  obtain ⟨hp, hplain⟩ := pattern_of_isNumeric hrule names
  refine exists_length?_of_matches ?_
  rw [hp]
  exact hm.of_plain hplain rest

/-- **The order of the rules agrees with the length of what they find.** Each rule finds what its
pattern takes: of all ways in which it matches, the one that comes first. What it finds is not
empty, and two rules find as much only if they are those for keywords and names. The first rule that
matches finds no less than any other, and it is the one for keywords if another finds as much. If it
is for numbers, then it finds the longest number with which the text starts, and no other kind of
number is spelled like it. -/
theorem first_longest (names : NameGrammar) (text : List Char) :
    (∀ rule : Rule, rule.length? names text = ((rule.pattern names).lengths text).head?) ∧
    (∀ (rule : Rule) n, rule.length? names text = some n → 0 < n) ∧
    (∀ (r r' : Rule) n, r.length? names text = some n → r'.length? names text = some n → r ≠ r' →
      r = .func ∧ r' = .ident ∨ r = .ident ∧ r' = .func) ∧
    ∀ rule n, first? names text = some (rule, n) →
      rule.length? names text = some n ∧
      (∀ (r : Rule) m, r.length? names text = some m →
        m ≤ n ∧ (m = n → r ≠ rule → rule = .func ∧ r = .ident)) ∧
      (rule.isNumeric = true → rule.Spells (text.take n) ∧
        ∀ (r : Rule) lexeme, r.Spells lexeme → lexeme <+: text →
          lexeme.length ≤ n ∧ (lexeme.length = n → r = rule)) := by
  refine ⟨fun rule => (rule.takes_pattern names text).head.symm, fun rule n => pos_of_length?,
    fun r r' n => eq_of_tie, fun rule n h => ⟨length?_of_first? h, fun r m => le_of_first? h,
    fun hrule => ⟨spells_of_length? hrule (length?_of_first? h), ?_⟩⟩⟩
  rintro r lexeme hs ⟨rest, rfl⟩
  obtain ⟨m, hm, hle⟩ := hs.exists_length? names rest
  obtain ⟨hmn, htie⟩ := le_of_first? h hm
  refine ⟨Nat.le_trans hle hmn, fun heq => Decidable.byContradiction fun hne => ?_⟩
  obtain ⟨rfl, -⟩ := htie (Nat.le_antisymm hmn (heq ▸ hle)) hne
  cases hrule

end Rule

end LineCalc
