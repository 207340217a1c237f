import LineCalc.Proofs.Reading.Along
import LineCalc.Proofs.Reading.Longest

/-!
# Lexemes in front of other text

A lexeme stays what it is when the text behind it changes, as long as separators stand where something
is new: characters that are in no word and in no lexeme of the kind. What its pattern matched is matched
still, since a separator ends a word. And no rule finds more than before: a longer lexeme would reach
over characters that were there before, or over a separator. The one exception is a name that becomes a
keyword, because a word character behind it is gone.
-/

namespace LineCalc

/-- What starts `text'` without a separator starts `text`. -/
def Severs (q : Char → Bool) (text text' : List Char) : Prop :=
  ∀ w : List Char, (∀ c ∈ w, q c = false) → w <+: text' → w <+: text

/-- No word goes on with a separator. -/
def Separates (q : Char → Bool) : Prop := ∀ c, q c = true → Text.isWordChar c = false

variable {q : Char → Bool} {text text' rest rest' w : List Char} {c : Char}

theorem separates_isBlank : Separates isBlank := by
  intro c hc
  rcases Bool.or_eq_true_iff.mp hc with hc | hc <;> rw [beq_iff_eq.mp hc] <;> decide

theorem separates_isLineBreak : Separates isLineBreak := by
  intro c hc
  rcases Bool.or_eq_true_iff.mp hc with hc | hc <;> rw [beq_iff_eq.mp hc] <;> decide

namespace Severs

theorem append_left (w : List Char) (h : Severs q rest rest') : Severs q (w ++ rest) (w ++ rest') := by
  induction w with
  | nil => exact h
  | cons d w ih =>
    intro v hv hp
    cases v with
    | nil => exact List.nil_prefix
    | cons c v =>
      obtain ⟨rfl, hrest⟩ := List.cons_prefix_cons.mp hp
      rw [List.forall_mem_cons] at hv
      exact List.cons_prefix_cons.mpr ⟨rfl, ih v hv.2 hrest⟩

theorem head?_eq (h : Severs q rest rest') (hc : rest'.head? = some c) :
    q c = true ∨ rest.head? = some c := by
  obtain ⟨rest', rfl⟩ : ∃ tail, rest' = c :: tail := List.head?_eq_some_iff.mp hc
  by_cases hq : q c = true
  · exact .inl hq
  · obtain ⟨tail, ht⟩ := h [c] (by simpa using hq) ⟨rest', rfl⟩
    exact .inr (ht ▸ rfl)

theorem wordEndsBefore (hq : Separates q) (h : Severs q rest rest')
    (he : Text.wordEndsBefore rest = true) : Text.wordEndsBefore rest' = true := by
  cases rest' with
  | nil => rfl
  | cons c rest' =>
    rcases h.head?_eq rfl with hc | hc
    · rw [Text.wordEndsBefore, hq c hc]
      rfl
    · obtain ⟨tail, rfl⟩ := List.head?_eq_some_iff.mp hc
      exact he

end Severs

/-! ### What was matched -/

namespace Pattern

variable {a : Pattern} {lexeme : List Char}

/-- What a pattern matched it still matches, if words still end behind it. -/
theorem Matches.before (h : a.Matches lexeme rest)
    (he : Text.wordEndsBefore rest = true → Text.wordEndsBefore rest' = true) :
    a.Matches lexeme rest' := by
  induction h generalizing rest' with
  | nothing => exact .nothing rest'
  | one h => exact .one h rest'
  | many h => exact .many h rest'
  | @both a b u v rest ha hb iha ihb =>
    refine .both (iha ?_) (ihb he)
    cases v with
    | nil => exact he
    | cons c v => exact id
  | left h ih => exact .left (ih he)
  | right h ih => exact .right (ih he)
  | wordEnd h => exact .wordEnd (he h)

end Pattern

namespace Rule

variable {names : NameGrammar} {rule r : Rule} {n m : Nat}

theorem matches_of_length? (h : rule.length? names (w ++ rest) = some w.length) :
    (rule.pattern names).Matches w rest := by
  have hmem := (h ▸ rule.takes_pattern names (w ++ rest)).mem
  obtain ⟨lexeme, tail, ht, hl, hm⟩ := Pattern.mem_lengths_iff.mp hmem
  obtain ⟨rfl, rfl⟩ := List.append_inj ht hl.symm
  exact hm

/-- A rule finds no more than a row behind which there is no character of its lexemes. -/
theorem le_of_over (ho : (rule.pattern names).Over q)
    (h : rule.length? names (w ++ rest) = some m)
    (hq : ∀ c, rest.head? = some c → q c = false) : m ≤ w.length := by
  refine Nat.le_of_not_lt fun hlt => ?_
  have hmem := (h ▸ rule.takes_pattern names (w ++ rest)).mem
  obtain ⟨c, tail, hd, hc⟩ := Pattern.exists_drop_of_lt ho hmem hlt
  rw [List.drop_left] at hd
  rw [hq c (by rw [hd]; rfl)] at hc
  cases hc

/-! ### Words -/

/-- Behind a keyword or a name nothing stands with which a name goes on. -/
theorem continuesName_of_length? (hr : rule = .func ∨ rule = .ident)
    (h : rule.length? names (w ++ rest) = some w.length) (hc : rest.head? = some c) :
    continuesName c = false := by
  -- keywords and slots look behind themselves, and a free name takes all it can
  have hword : ∀ word, wordLength? word (w ++ rest) = some w.length → continuesName c = false := by
    intro word hw
    obtain ⟨-, he, hl⟩ := wordLength?_eq_some_iff.mp hw
    rw [← hl, List.drop_left] at he
    exact continuesName_of_wordEndsBefore he hc
  rcases hr with rfl | rfl
  · obtain ⟨f, -, hf⟩ := List.exists_of_findSome?_eq_some h
    exact hword _ hf
  · cases names with
    | memorySlots =>
      obtain ⟨name, -, hn⟩ := List.exists_of_findSome?_eq_some h
      exact hword _ hn
    | free =>
      cases w with
      | nil => exact absurd (pos_of_length? h) (Nat.lt_irrefl 0)
      | cons d w =>
        rw [length?, List.cons_append, NameGrammar.length?] at h
        split at h
        · have hl : runLength continuesName (w ++ rest) = w.length := by
            have := Option.some.inj h
            rw [List.length_cons] at this
            omega
          have hd : ((w ++ rest).drop (runLength continuesName (w ++ rest))).head? = some c := by
            rw [hl, List.drop_left, hc]
          exact head?_drop_runLength hd
        · cases h

/-- Names go on with the characters of keywords and of names. -/
theorem over_continuesName (hr : rule = .func ∨ rule = .ident) :
    (rule.pattern names).Over continuesName := by
  have hchar : ∀ d, continuesName d = true → ∀ c, (c == d) = true → continuesName c = true :=
    fun d hd c hc => by rwa [beq_iff_eq.mp hc]
  rcases hr with rfl | rfl
  · simp only [pattern, Pattern.keyword, Pattern.word, Pattern.char, Pattern.Over, and_true]
    and_intros <;> exact hchar _ rfl
  · cases names with
    | free =>
      refine ⟨fun c hc => ?_, fun c hc => hc⟩
      rw [startsName, Bool.or_eq_true] at hc
      rw [continuesName, Char.isAlphanum, Bool.or_eq_true, Bool.or_eq_true]
      exact hc.imp_left .inl
    | memorySlots =>
      simp only [NameGrammar.pattern, pattern, Pattern.slotName, Pattern.word, Pattern.char,
        Pattern.Over, and_true]
      have hdigit : ∀ c, ['1', '2', '3', '4', '5', '6', '7', '8', '9'].contains c = true →
          continuesName c = true := by
        intro c hc
        have hall : ['1', '2', '3', '4', '5', '6', '7', '8', '9'].all continuesName = true := rfl
        exact List.all_eq_true.mp hall c (List.contains_iff_mem.mp hc)
      and_intros <;> first | exact hchar _ rfl | exact hdigit

/-! ### What was not matched -/

theorem eq_of_family_eq (h : r.family = rule.family)
    (hr : rule = .whiteSpace ∨ rule = .newLine ∨ rule = .comment) : r = rule := by
  rcases hr with rfl | rfl | rfl <;> cases r <;> first | rfl | cases h

theorem isLineBreak_of_comment (h : first? names (w ++ rest) = some (.comment, w.length))
    (hc : rest.head? = some c) : isLineBreak c = true :=
  head?_drop_commentLength (length?_of_first? h) (by rw [List.drop_left, hc])

/-- No lexeme of the rule has a separator in it. -/
def Avoids (names : NameGrammar) (q : Char → Bool) (rule : Rule) : Prop :=
  ∀ text n, rule.length? names text = some n → ∀ c ∈ text.take n, q c = false

theorem avoids_isLineBreak (h : rule ≠ .newLine) : Avoids names isLineBreak rule :=
  fun _ _ hl => (inward names h).isLineBreak_eq_false hl

/-- Only blanks and comments have blanks in them. -/
theorem avoids_isBlank (hf : rule ≠ .whiteSpace) (hi : rule ≠ .comment) :
    Avoids names isBlank rule := by
  have hne : ∀ p : Char → Bool, p ' ' = false → p '\t' = false → ∀ c, p c = true →
      (!isBlank c) = true := by
    intro p hs ht c hc
    rw [Bool.not_eq_true']
    refine Bool.eq_false_iff.mpr fun hb => ?_
    rcases Bool.or_eq_true_iff.mp hb with hb | hb <;> rw [beq_iff_eq.mp hb] at hc
    · rw [hs] at hc
      cases hc
    · rw [ht] at hc
      cases hc
  -- no class of characters in the other patterns has a blank in it
  have hover : (rule.pattern names).Over fun c => !isBlank c := by
    cases rule with
    | whiteSpace | comment => contradiction
    | ident =>
      cases names with
      | free => exact ⟨hne _ rfl rfl, hne _ rfl rfl⟩
      | memorySlots =>
        simp only [NameGrammar.pattern, pattern, Pattern.slotName, Pattern.word, Pattern.char,
          Pattern.Over, and_true]
        and_intros <;> exact hne _ rfl rfl
    | _ =>
      simp only [pattern, Pattern.nondecimal, Pattern.marked, Pattern.scientific, Pattern.mantissa,
        Pattern.exponent, Pattern.float, Pattern.number, Pattern.fraction, Pattern.optional,
        Pattern.lineBreak, Pattern.keyword, Pattern.word, Pattern.run, Pattern.char, Pattern.Over,
        and_true]
      and_intros <;> exact hne _ rfl rfl
  intro text n hl c hc
  have hmem := (hl ▸ rule.takes_pattern names text).mem
  obtain ⟨lexeme, tail, rfl, rfl, hm⟩ := Pattern.mem_lengths_iff.mp hmem
  rw [List.take_left] at hc
  simpa using hm.of_over hover c hc

/-- No rule finds more than the lexeme that was there before. -/
theorem le_of_severed (hq : Separates q) (h : first? names (w ++ rest) = some (rule, w.length))
    (hs : Severs q rest rest')
    (ha : ∀ r : Rule, r.family = rule.family → r ≠ .comment → Avoids names q r)
    (hc : rule = .comment → ∀ c, rest'.head? = some c → isLineBreak c = true)
    (hr : r.length? names (w ++ rest') = some m) : m ≤ w.length := by
  have hw := length?_of_first? h
  obtain ⟨n, hn, -⟩ :=
    exists_length?_of_matches ((matches_of_length? hw).before (hs.wordEndsBefore hq))
  have hfamily := family_eq hn hr
  by_cases hword : r = .func ∨ r = .ident
  · -- nothing with which a name goes on stands behind the lexeme, before and now
    have hrule : rule = .func ∨ rule = .ident := by
      rcases hword with rfl | rfl <;> cases rule <;>
        first | exact .inl rfl | exact .inr rfl | cases hfamily
    refine le_of_over (over_continuesName hword) hr fun c hc => ?_
    rcases hs.head?_eq hc with hsep | hc
    · refine Bool.eq_false_iff.mpr fun hname => ?_
      have hnot := hq c hsep
      rw [isWordChar_of_continuesName hname] at hnot
      cases hnot
    · exact continuesName_of_length? hrule hw hc
  by_cases hcomment : r = .comment
  · -- the line ends behind the lexeme
    subst hcomment
    obtain rfl : rule = .comment := eq_of_family_eq hfamily (.inr (.inr rfl))
    have ho : (pattern names .comment).Over fun c => !isLineBreak c :=
      ⟨fun c hc => by rw [beq_iff_eq.mp hc]; rfl, fun c hc => by rw [beq_iff_eq.mp hc]; rfl,
        fun c hc => hc⟩
    exact le_of_over ho hr fun c hhead => by rw [hc rfl c hhead]; rfl
  · -- what the rule finds now, it would have found before
    rw [not_or] at hword
    have hmem := (hr ▸ r.takes_pattern names (w ++ rest')).mem
    obtain ⟨lexeme, tail, ht, rfl, hm⟩ := Pattern.mem_lengths_iff.mp hmem
    have hink : ∀ c ∈ lexeme, q c = false := by
      have htake := ha r hfamily.symm hcomment _ _ hr
      rwa [ht, List.take_left] at htake
    obtain ⟨tail', ht'⟩ : lexeme <+: w ++ rest := hs.append_left w lexeme hink ⟨tail, ht.symm⟩
    obtain ⟨k, hk, hle⟩ :=
      exists_length?_of_matches (hm.of_plain (plain_pattern hword.1 hword.2) tail')
    rw [ht'] at hk
    exact Nat.le_trans hle (le_of_first? h hk).1

/-- The lexeme is found again, by the same rule, unless it is a name that becomes a keyword. -/
theorem first?_of_severed (hq : Separates q) (h : first? names (w ++ rest) = some (rule, w.length))
    (hs : Severs q rest rest')
    (ha : ∀ r : Rule, r.family = rule.family → r ≠ .comment → Avoids names q r)
    (hc : rule = .comment → ∀ c, rest'.head? = some c → isLineBreak c = true)
    (hk : rule = .ident → ∀ f : Func, w = f.keyword.toList → Text.wordEndsBefore rest' = false) :
    first? names (w ++ rest') = some (rule, w.length) := by
  obtain ⟨n, hn, hle⟩ := exists_length?_of_matches
    ((matches_of_length? (length?_of_first? h)).before (hs.wordEndsBefore hq))
  obtain rfl : n = w.length := Nat.le_antisymm (le_of_severed hq h hs ha hc hn) hle
  refine first?_eq_some hn (fun r m hr => le_of_severed hq h hs ha hc hr) fun hi hfunc => ?_
  obtain ⟨f, -, hword⟩ := List.exists_of_findSome?_eq_some hfunc
  obtain ⟨hp, hend, hl⟩ := wordLength?_eq_some_iff.mp hword
  rw [← hl, List.drop_left] at hend
  have hpre := List.prefix_of_prefix_length_le (List.prefix_append w rest') hp (Nat.le_of_eq hl)
  rw [hk hi f (hpre.eq_of_length hl)] at hend
  cases hend

theorem first?_of_blanks (h : first? names (w ++ rest) = some (rule, w.length))
    (hb : rule ≠ .whiteSpace) (hs : Severs isBlank rest rest')
    (hc : rule = .comment → ∀ c, rest'.head? = some c → isLineBreak c = true)
    (hk : rule = .ident → ∀ f : Func, w = f.keyword.toList → Text.wordEndsBefore rest' = false) :
    first? names (w ++ rest') = some (rule, w.length) := by
  refine first?_of_severed separates_isBlank h hs (fun r hr hn => avoids_isBlank ?_ hn) hc hk
  rintro rfl
  exact hb (eq_of_family_eq hr.symm (.inl rfl))

end Rule

end LineCalc
