import LineCalc.Proofs.Reading.Chunks

/-!
# Cutting at the end of a line

No rule looks past the end of a line, and no lexeme reaches over it. A text that ends with a line
break is therefore cut in the same way whatever follows, unless a carriage return at its end meets a
line feed: the two are one line break.
-/

namespace LineCalc

/-- The text ends with a line break. -/
def Ended (text : List Char) : Prop := ∃ body c, text = body ++ [c] ∧ isLineBreak c = true

/-- No carriage return and line feed are torn apart between `u` and `t`. -/
def Parts (u t : List Char) : Prop := ¬(u.getLast? = some '\r' ∧ t.head? = some '\n')

/-- How many lines end in a text. -/
def lineBreaks : List Char → Nat
  | [] => 0
  | c :: rest => (if Cursor.endsLine c rest.head? then 1 else 0) + lineBreaks rest

namespace Ended

variable {u : List Char} {c : Char} {p : Char → Bool}

theorem ne_nil (h : Ended u) : u ≠ [] := by
  rintro rfl
  obtain ⟨body, c, h, -⟩ := h
  simp at h

theorem of_cons (h : Ended (c :: u)) : u = [] ∧ isLineBreak c = true ∨ Ended u := by
  obtain ⟨body, b, hu, hb⟩ := h
  cases body with
  | nil =>
    obtain ⟨rfl, rfl⟩ : c = b ∧ u = [] := by simpa using hu
    exact .inl ⟨rfl, hb⟩
  | cons a body =>
    obtain ⟨rfl, rfl⟩ : c = a ∧ u = body ++ [b] := by simpa using hu
    exact .inr ⟨body, b, rfl, hb⟩

theorem tail (h : Ended (c :: u)) (hc : isLineBreak c = false) : Ended u := by
  rcases h.of_cons with ⟨-, hb⟩ | hu
  · rw [hc] at hb
    cases hb
  · exact hu

theorem of_append {w : List Char} (h : Ended (w ++ u)) (hu : u ≠ []) : Ended u := by
  induction w with
  | nil => exact h
  | cons c w ih =>
    rcases h.of_cons with ⟨hn, -⟩ | h
    · exact absurd (List.append_eq_nil_iff.mp hn).2 hu
    · exact ih h

theorem exists_mem (h : Ended u) : ∃ c ∈ u, isLineBreak c = true := by
  obtain ⟨body, c, rfl, hc⟩ := h
  exact ⟨c, by simp, hc⟩

theorem drop_runLength (h : Ended u) (hp : ∀ c, p c = true → isLineBreak c = false) :
    Ended (u.drop (runLength p u)) := by
  induction u with
  | nil => exact absurd rfl h.ne_nil
  | cons c u ih =>
    by_cases hc : p c = true
    · have := ih (h.tail (hp c hc))
      simpa [runLength, hc] using this
    · simpa [runLength, hc] using h

theorem runLength_append (h : Ended u) (hp : ∀ c, p c = true → isLineBreak c = false)
    (t : List Char) : runLength p (u ++ t) = runLength p u := by
  induction u with
  | nil => exact absurd rfl h.ne_nil
  | cons c u ih =>
    by_cases hc : p c = true
    · have := ih (h.tail (hp c hc))
      simpa [runLength, hc] using this
    · simp [runLength, hc]

end Ended

/-- A form of lexemes that stay inside a line, and that nothing behind the line decides. -/
structure Inward (g : List Char → Option Nat) : Prop where
  append : ∀ {u : List Char}, Ended u → ∀ t, g (u ++ t) = g u
  drop : ∀ {u : List Char} {n : Nat}, Ended u → g u = some n → Ended (u.drop n)

namespace Inward

variable {g : List Char → Option Nat} {text : List Char} {n : Nat}

/-- A lexeme of such a form has no line break in it. -/
theorem isLineBreak_eq_false (hg : Inward g) (h : g text = some n) :
    ∀ c ∈ text.take n, isLineBreak c = false := by
  intro c hc
  obtain ⟨i, hi, rfl⟩ := List.mem_iff_getElem.mp hc
  rw [List.length_take] at hi
  rw [List.getElem_take]
  by_cases hb : isLineBreak text[i] = true
  · -- cut behind the line break, the text has a lexeme that is longer than what is left
    have hu : Ended (text.take (i + 1)) :=
      ⟨text.take i, text[i], (List.take_append_getElem (by omega)).symm, hb⟩
    have ha := hg.append hu (text.drop (i + 1))
    rw [List.take_append_drop, h] at ha
    have hd := hg.drop hu ha.symm
    rw [List.drop_eq_nil_of_le (by rw [List.length_take]; omega)] at hd
    exact absurd rfl hd.ne_nil
  · simpa using hb

end Inward

/-! ### How the forms are built -/

section

variable {g : List Char → Option Nat} {p : Char → Bool}

theorem isLineBreak_eq_false_of (hn : p '\n' = false) (hr : p '\r' = false) (c : Char)
    (hc : p c = true) : isLineBreak c = false := by
  by_cases hb : isLineBreak c = true
  · obtain rfl | rfl : c = '\n' ∨ c = '\r' := by simpa [isLineBreak] using hb
    · rw [hn] at hc
      cases hc
    · rw [hr] at hc
      cases hc
  · simpa using hb

theorem inward_none : Inward fun _ => none where
  append _ _ := rfl
  drop _ h := by cases h

theorem inward_zero : Inward fun _ => some 0 where
  append _ _ := rfl
  drop hu h := by
    cases h
    exact hu

theorem inward_runLength (hn : p '\n' = false) (hr : p '\r' = false) :
    Inward fun text => some (runLength p text) where
  append hu t := by rw [hu.runLength_append (isLineBreak_eq_false_of hn hr)]
  drop hu h := by
    cases h
    exact hu.drop_runLength (isLineBreak_eq_false_of hn hr)

theorem inward_positive? (hn : p '\n' = false) (hr : p '\r' = false) :
    Inward fun text => positive? (runLength p text) where
  append hu t := by rw [hu.runLength_append (isLineBreak_eq_false_of hn hr)]
  drop hu h := by
    rw [le_of_positive? h]
    exact hu.drop_runLength (isLineBreak_eq_false_of hn hr)

/-- The first character decides how a form goes on: behind itself, if it ends no line, or with
itself. -/
theorem Inward.of_cons (h : ∀ c,
    (isLineBreak c = false ∧ ∃ k, Inward k ∧ ∀ rest, g (c :: rest) = (k rest).map (1 + ·)) ∨
    ∃ k, Inward k ∧ ∀ rest, g (c :: rest) = k (c :: rest)) : Inward g where
  append := by
    intro u hu t
    cases u with
    | nil => exact absurd rfl hu.ne_nil
    | cons c rest =>
      rcases h c with ⟨hc, k, hk, hg⟩ | ⟨k, hk, hg⟩
      · rw [List.cons_append, hg, hg, hk.append (hu.tail hc)]
      · rw [List.cons_append, hg, hg]
        exact hk.append hu t
  drop := by
    intro u n hu hn
    cases u with
    | nil => exact absurd rfl hu.ne_nil
    | cons c rest =>
      rcases h c with ⟨hc, k, hk, hg⟩ | ⟨k, hk, hg⟩
      · rw [hg] at hn
        obtain ⟨m, hm, rfl⟩ := Option.map_eq_some_iff.mp hn
        rw [Nat.add_comm, List.drop_succ_cons]
        exact hk.drop (hu.tail hc) hm
      · exact hk.drop hu (hg rest ▸ hn)

/-- One form behind another one. -/
theorem Inward.andThen {m : List Char → Option Nat} {k : Nat → List Char → Option Nat}
    (hm : Inward m) (hk : ∀ n, Inward (k n))
    (h : ∀ text, g text = (m text).bind fun n => (k n (text.drop n)).map (n + ·)) : Inward g where
  append := by
    intro u hu t
    rw [h, h, hm.append hu]
    cases hn : m u with
    | none => rfl
    | some n =>
      have hd := hm.drop hu hn
      have hl : n ≤ u.length := by
        have := List.length_pos_iff.mpr hd.ne_nil
        rw [List.length_drop] at this
        omega
      show (k n ((u ++ t).drop n)).map _ = (k n (u.drop n)).map _
      rw [List.drop_append_of_le_length hl, (hk n).append hd]
  drop := by
    intro u n hu hn
    rw [h] at hn
    obtain ⟨i, hi, hn⟩ := Option.bind_eq_some_iff.mp hn
    obtain ⟨j, hj, rfl⟩ := Option.map_eq_some_iff.mp hn
    rw [← List.drop_drop]
    exact (hk i).drop (hm.drop hu hi) hj

theorem Inward.orElse {k : List Char → Option Nat} (hg : Inward g) (hk : Inward k) :
    Inward fun text => g text <|> k text where
  append hu t := by rw [hg.append hu, hk.append hu]
  drop := by
    intro u n hu hn
    cases h : g u with
    | none =>
      rw [h] at hn
      exact hk.drop hu hn
    | some m =>
      rw [h] at hn
      cases hn
      exact hg.drop hu h

/-- The first of several forms that matches. -/
theorem Inward.findSome? {α : Type} {k : α → List Char → Option Nat} {l : List α}
    (h : ∀ a ∈ l, Inward (k a)) : Inward fun text => l.findSome? fun a => k a text where
  append := by
    intro u hu t
    induction l with
    | nil => rfl
    | cons a l ih =>
      simp only [List.findSome?_cons, (h a List.mem_cons_self).append hu,
        ih fun b hb => h b (List.mem_cons_of_mem a hb)]
  drop := by
    intro u n hu hn
    obtain ⟨a, ha, hn⟩ := List.exists_of_findSome?_eq_some hn
    exact (h a ha).drop hu hn

end

/-! ### The rules -/

theorem inward_sign {a : Char} (ha : isLineBreak a = false) : Inward (signLength? a) := by
  refine .of_cons fun c => ?_
  by_cases hc : c = a
  · exact .inl ⟨hc ▸ ha, _, inward_zero, fun rest => by simp [signLength?, hc]⟩
  · exact .inr ⟨_, inward_none, fun rest => by simp [signLength?, hc]⟩

theorem inward_mark {a b : Char} (ha : isLineBreak a = false) (hb : isLineBreak b = false) :
    Inward fun text => signLength? a text <|> signLength? b text :=
  (inward_sign ha).orElse (inward_sign hb)

theorem inward_comment : Inward commentLength? := by
  refine (inward_sign (a := '%') rfl).andThen (fun _ => (inward_sign (a := '%') rfl).andThen
    (fun _ => inward_runLength (p := fun c => !isLineBreak c) rfl rfl) fun _ => rfl) fun text => ?_
  rcases text with _ | ⟨a, _ | ⟨b, rest⟩⟩
  · rfl
  · by_cases ha : a = '%' <;> simp [commentLength?, signLength?, ha]
  · by_cases ha : a = '%' <;> by_cases hb : b = '%' <;>
      simp [commentLength?, signLength?, ha, hb]
    omega

theorem inward_nondecimal : Inward nondecimalLength? := by
  refine (inward_sign (a := '0') rfl).andThen (fun _ => .orElse
    ((inward_mark (a := 'x') (b := 'X') rfl rfl).andThen
      (fun _ => inward_positive? (p := isHexDigit) rfl rfl) fun _ => rfl)
    ((inward_mark (a := 'o') (b := 'O') rfl rfl).andThen
      (fun _ => inward_positive? (p := isOctalDigit) rfl rfl) fun _ => rfl)) fun text => ?_
  rcases text with _ | ⟨a, _ | ⟨b, rest⟩⟩
  · rfl
  · by_cases ha : a = '0' <;> simp [nondecimalLength?, signLength?, ha]
  · by_cases ha : a = '0'
    · subst ha
      by_cases hx : b = 'x' ∨ b = 'X'
      · rcases hx with rfl | rfl <;> cases h : positive? (runLength isHexDigit rest) <;>
          simp [nondecimalLength?, signLength?, h] <;> omega
      · simp only [not_or] at hx
        by_cases ho : b = 'o' ∨ b = 'O'
        · rcases ho with rfl | rfl <;> cases h : positive? (runLength isOctalDigit rest) <;>
            simp [nondecimalLength?, signLength?, h] <;> omega
        · simp only [not_or] at ho
          simp [nondecimalLength?, signLength?, hx.1, hx.2, ho.1, ho.2]
    · simp [nondecimalLength?, signLength?, ha]

theorem inward_pointed : Inward pointedLength? := by
  -- without digits in front of the point there must be some behind it
  have hf : ∀ whole, Inward fun text => if whole = 0 ∧ runLength Char.isDigit text = 0 then none
      else some (runLength Char.isDigit text) := by
    intro whole
    refine ⟨fun {u} hu t => ?_, fun {u n} hu h => ?_⟩
    · rw [hu.runLength_append (isLineBreak_eq_false_of rfl rfl)]
    · split at h
      · cases h
      · exact (inward_runLength (p := Char.isDigit) rfl rfl).drop hu h
  refine (inward_runLength (p := Char.isDigit) rfl rfl).andThen (fun whole =>
    (inward_sign (a := '.') rfl).andThen (fun _ => hf whole) fun _ => rfl) fun text => ?_
  rw [pointedLength?]
  show _ = Option.map _ _
  rcases text.drop (runLength Char.isDigit text) with _ | ⟨c, rest⟩
  · rfl
  · by_cases hc : c = '.'
    · subst hc
      by_cases hn : runLength Char.isDigit text = 0 ∧ runLength Char.isDigit rest = 0
      · simp [signLength?, hn]
      · simp only [signLength?, if_pos, if_neg hn, Option.bind_some, List.drop_succ_cons,
          List.drop_zero, Option.map_some]
        rw [Nat.add_assoc]
    · simp [signLength?, hc]

theorem inward_digits : Inward digitsLength? := inward_positive? rfl rfl

theorem inward_exponent : Inward exponentLength? := by
  refine (inward_mark (a := 'e') (b := 'E') rfl rfl).andThen (fun _ => .orElse
    ((inward_mark (a := '+') (b := '-') rfl rfl).andThen (fun _ => inward_digits) fun _ => rfl)
    inward_digits) fun text => ?_
  rcases text with _ | ⟨a, rest⟩
  · rfl
  · by_cases ha : a = 'e' ∨ a = 'E'
    · rcases rest with _ | ⟨b, rest⟩
      · rcases ha with rfl | rfl <;> rfl
      · by_cases hb : b = '+' ∨ b = '-'
        · have hd : digitsLength? (b :: rest) = none := by rcases hb with rfl | rfl <;> rfl
          rcases ha with rfl | rfl <;> rcases hb with rfl | rfl <;> cases h : digitsLength? rest <;>
            simp [exponentLength?, signLength?, h, hd] <;> omega
        · simp only [not_or] at hb
          rcases ha with rfl | rfl <;> simp [exponentLength?, signLength?, hb.1, hb.2]
    · simp only [not_or] at ha
      simp [exponentLength?, signLength?, ha.1, ha.2]

theorem inward_scientific : Inward scientificLength? := by
  refine (inward_pointed.orElse inward_digits).andThen (fun _ => inward_exponent) fun text => ?_
  rw [scientificLength?]
  refine congrArg _ (funext fun n => ?_)
  cases exponentLength? (text.drop n) <;> rfl

theorem inward_word {word : List Char} (hw : word.any isLineBreak = false) :
    Inward (wordLength? word) := by
  induction word with
  | nil =>
    refine ⟨fun {u} hu t => ?_, fun {u n} hu h => ?_⟩
    · cases u with
      | nil => exact absurd rfl hu.ne_nil
      | cons c u => rfl
    · obtain ⟨rfl, -⟩ := eq_of_wordLength? h
      exact hu
  | cons a word ih =>
    refine .of_cons fun c => ?_
    by_cases hc : c = a
    · subst hc
      rw [List.any_cons, Bool.or_eq_false_iff] at hw
      refine .inl ⟨hw.1, _, ih hw.2, fun rest => ?_⟩
      simp only [wordLength?, List.isPrefixOf, BEq.rfl, Bool.true_and, List.length_cons,
        List.drop_succ_cons]
      split
      · simp [Nat.add_comm]
      · rfl
    · exact .inr ⟨_, inward_none, fun rest => by simp [wordLength?, List.isPrefixOf, Ne.symm hc]⟩

theorem inward_keyword : Inward keywordLength? :=
  Inward.findSome? fun f _ => inward_word (by cases f <;> decide)

theorem inward_name : (names : NameGrammar) → Inward names.length?
  | .free => by
    refine .of_cons fun c => ?_
    by_cases hc : startsName c = true
    · exact .inl ⟨isLineBreak_eq_false_of rfl rfl c hc, _,
        inward_runLength (p := continuesName) rfl rfl, fun rest => by
          simp [NameGrammar.length?, hc]⟩
    · exact .inr ⟨_, inward_none, fun rest => by simp [NameGrammar.length?, hc]⟩
  | .memorySlots => Inward.findSome? fun name hn => inward_word (by
    have h : slotNames.all (fun name => !name.toList.any isLineBreak) = true := by decide
    simpa using List.all_eq_true.mp h name hn)

namespace Rule

variable {names : NameGrammar} {rule : Rule} {u t : List Char}

theorem inward (names : NameGrammar) (h : rule ≠ .newLine) :
    Inward fun text => rule.length? names text := by
  cases rule with
  | newLine => exact absurd rfl h
  | whiteSpace => exact inward_positive? rfl rfl
  | comment => exact inward_comment
  | nondecimal => exact inward_nondecimal
  | scientific => exact inward_scientific
  | float => exact inward_pointed
  | number => exact inward_digits
  | func => exact inward_keyword
  | ident => exact inward_name names
  | equals | plus | minus | asterisk | slash | leftParen | rightParen => exact inward_sign rfl

theorem lineBreakLength?_append (hu : Ended u) (hp : Parts u t) :
    lineBreakLength? (u ++ t) = lineBreakLength? u := by
  rcases u with _ | ⟨a, _ | ⟨b, rest⟩⟩
  · exact absurd rfl hu.ne_nil
  · rcases t with _ | ⟨b, t⟩
    · rfl
    · have hb : a = '\r' → b ≠ '\n' := by
        rintro rfl rfl
        exact hp ⟨rfl, rfl⟩
      rcases hu.of_cons with ⟨-, ha⟩ | hn
      · obtain rfl | rfl : a = '\n' ∨ a = '\r' := by simpa [isLineBreak] using ha
        · rfl
        · simp [lineBreakLength?, hb rfl]
      · exact absurd rfl hn.ne_nil
  · by_cases ha : a = '\r'
    · subst ha
      by_cases hb : b = '\n' <;> simp [lineBreakLength?, hb]
    · by_cases hn : a = '\n' <;> simp [lineBreakLength?, ha, hn]

theorem length?_append (hu : Ended u) (hp : Parts u t) :
    rule.length? names (u ++ t) = rule.length? names u := by
  by_cases h : rule = .newLine
  · subst h
    exact lineBreakLength?_append hu hp
  · exact (inward names h).append hu t

theorem first?_append (hu : Ended u) (hp : Parts u t) :
    first? names (u ++ t) = first? names u := by
  simp only [first?, length?_append hu hp]

end Rule

/-! ### The chunks -/

/-- A line break `w` in front of `v`. -/
def LineBreak (w v : List Char) : Prop :=
  w = ['\r', '\n'] ∨ w = ['\n'] ∨ w = ['\r'] ∧ v.head? ≠ some '\n'

/-- What the rule for line breaks takes is a whole one. -/
theorem LineBreak.of_length? {text : List Char} {n : Nat} (h : lineBreakLength? text = some n) :
    LineBreak (text.take n) (text.drop n) := by
  unfold lineBreakLength? at h
  split at h
  · cases h
    exact .inl rfl
  · -- a carriage return by itself, since the case of a pair came first
    rename_i v hn
    cases h
    refine .inr (.inr ⟨rfl, ?_⟩)
    show v.head? ≠ some '\n'
    intro hb
    obtain ⟨tail, rfl⟩ := List.head?_eq_some_iff.mp hb
    exact hn tail rfl
  · cases h
    exact .inr (.inl rfl)
  · cases h

theorem isLineBreak_of_lineBreakLength? {c : Char} {rest : List Char}
    (h : lineBreakLength? (c :: rest) = none) : isLineBreak c = false := by
  refine Bool.eq_false_iff.mpr fun hc => ?_
  obtain rfl | rfl : c = '\n' ∨ c = '\r' := by simpa [isLineBreak] using hc
  · cases h
  · rcases rest with _ | ⟨a, rest⟩
    · cases h
    · by_cases ha : a = '\n' <;> simp [lineBreakLength?, ha] at h

namespace Shape

variable {names : NameGrammar} {c : Char} {rest t : List Char}

theorem first_append (hu : Ended (c :: rest)) (hp : Parts (c :: rest) t) :
    first names c (rest ++ t) = first names c rest := by
  unfold first
  rw [← List.cons_append, Rule.first?_append hu hp]
  cases h : Rule.first? names (c :: rest) with
  | none => rfl
  | some m =>
    have hl := Rule.length_of_length? (Rule.length?_of_first? h)
    show matched m.1 _ = matched m.1 _
    rw [List.take_append_of_le_length hl]

/-- A line ends with the first chunk, or does not end in it. -/
theorem first_cases (names : NameGrammar) (c : Char) (rest : List Char) :
    (∀ b ∈ (first names c rest).chars, isLineBreak b = false) ∨
    ∃ w v, first names c rest = .matched .newLine w ∧ c :: rest = w ++ v ∧ LineBreak w v := by
  unfold first
  cases h : Rule.first? names (c :: rest) with
  | none =>
    refine .inl fun b hb => ?_
    obtain rfl : b = c := List.mem_singleton.mp hb
    have hn := List.findSome?_eq_none_iff.mp h .newLine (Rule.mem_all _)
    exact isLineBreak_of_lineBreakLength? (Option.map_eq_none_iff.mp hn)
  | some m =>
    obtain ⟨rule, n⟩ := m
    have hl := Rule.length?_of_first? h
    by_cases hr : rule = .newLine
    · subst hr
      exact .inr ⟨(c :: rest).take n, (c :: rest).drop n, rfl, (List.take_append_drop ..).symm,
        .of_length? hl⟩
    · exact .inl ((Rule.inward names hr).isLineBreak_eq_false hl)

end Shape

namespace Cursor

variable {w : List Char}

theorem endsLine_eq_false {c : Char} (h : isLineBreak c = false) (next : Option Char) :
    endsLine c next = false := by
  simp only [isLineBreak, Bool.or_eq_false_iff] at h
  simp [endsLine, h]

/-- A cursor counts the lines that end in the text. -/
theorem line_advanceOver_eq (cursor : Cursor) (text : List Char) :
    (cursor.advanceOver text).span.stop.line = cursor.span.stop.line + lineBreaks text := by
  induction text generalizing cursor with
  | nil => rfl
  | cons c text ih =>
    have hstep : (cursor.advance c text.head?).span.stop.line =
        cursor.span.stop.line + if endsLine c text.head? then 1 else 0 := by
      show (positionAfter _ _ _).line = _
      unfold positionAfter
      split <;> rfl
    rw [advanceOver_cons, ih, hstep, lineBreaks, Nat.add_assoc]

theorem stop_advanceOver (cursor : Cursor) {v : List Char} (h : LineBreak w v) :
    (cursor.advanceOver w).span.stop = ⟨cursor.span.stop.line + 1, 1⟩ := by
  rcases h with rfl | rfl | ⟨rfl, -⟩ <;> rfl

end Cursor

theorem lineBreaks_lineBreak {w v : List Char} (h : LineBreak w v) :
    lineBreaks (w ++ v) = 1 + lineBreaks v := by
  rcases h with rfl | rfl | ⟨rfl, hv⟩
  · show 0 + (1 + lineBreaks v) = _
    omega
  · rfl
  · show (if Cursor.endsLine '\r' v.head? then 1 else 0) + lineBreaks v = _
    rw [if_pos (by simpa [Cursor.endsLine] using hv)]

theorem lineBreaks_append {w : List Char} (h : ∀ c ∈ w, isLineBreak c = false) (v : List Char) :
    lineBreaks (w ++ v) = lineBreaks v := by
  induction w with
  | nil => rfl
  | cons c w ih =>
    rw [List.cons_append, lineBreaks, ih fun b hb => h b (List.mem_cons_of_mem c hb),
      Cursor.endsLine_eq_false (h c List.mem_cons_self)]
    simp

theorem lineBreaks_eq_zero {w : List Char} (h : ∀ c ∈ w, isLineBreak c = false) :
    lineBreaks w = 0 := by
  have hw := lineBreaks_append h []
  rwa [List.append_nil] at hw

theorem Cursor.line_advanceOver {w : List Char} (cursor : Cursor)
    (h : ∀ c ∈ w, isLineBreak c = false) :
    (cursor.advanceOver w).span.stop.line = cursor.span.stop.line := by
  rw [line_advanceOver_eq, lineBreaks_eq_zero h, Nat.add_zero]

namespace Chunk

variable {names : NameGrammar} {t : List Char}

/-- A line ends with the first chunk, or does not end in it, and the cursor knows. -/
theorem first_cases (cursor : Cursor) {c : Char} {rest v : List Char}
    (hv : (first names cursor c rest).chars ++ v = c :: rest) :
    (∃ w, (first names cursor c rest).shape = .matched .newLine w ∧
      (first names cursor c rest).cursor.span.stop = ⟨cursor.span.stop.line + 1, 1⟩ ∧
      lineBreaks (c :: rest) = 1 + lineBreaks v) ∨
    (∀ b ∈ (first names cursor c rest).chars, isLineBreak b = false) ∧
      (first names cursor c rest).cursor.span.stop.line = cursor.span.stop.line ∧
      lineBreaks (c :: rest) = lineBreaks v := by
  rcases Shape.first_cases names c rest with h | ⟨w, v', hw, he, hb⟩
  · refine .inr ⟨h, Cursor.line_advanceOver _ h, ?_⟩
    rw [← hv]
    exact lineBreaks_append h v
  · have hs : (first names cursor c rest).shape = .matched .newLine w := hw
    have hc : (first names cursor c rest).chars = w := by rw [chars, hs, Shape.chars]
    obtain rfl : v = v' := by
      rw [← hv, hc] at he
      exact List.append_cancel_left he
    refine .inl ⟨w, hs, ?_, he ▸ lineBreaks_lineBreak hb⟩
    show (cursor.collapse.advanceOver (first names cursor c rest).chars).span.stop = _
    rw [hc, Cursor.stop_advanceOver _ hb]
    rfl

theorem cutFrom_of_append_eq (cursor : Cursor) {c : Char} {rest v : List Char}
    (hv : (first names cursor c rest).chars ++ v = c :: rest) :
    cutFrom names [] cursor 0 (c :: rest) = first names cursor c rest ::
      cutFrom names [] (first names cursor c rest).cursor 0 v := by
  rw [cutFrom_cons]
  have hd : (c :: rest).drop (first names cursor c rest).chars.length = v := by
    rw [← hv, List.drop_left]
  rw [hd]

/-- Behind a line break a text is cut as if it started there. -/
theorem cutFrom_append (names : NameGrammar) {u : List Char} (hu : Ended u) (hp : Parts u t)
    (cursor : Cursor) :
    ∃ before last w, cutFrom names [] cursor 0 u = before ++ [last] ∧
      last.shape = .matched .newLine w ∧
      cutFrom names [] cursor 0 (u ++ t) = before ++ last :: cutFrom names [] last.cursor 0 t ∧
      last.cursor.span.stop = ⟨cursor.span.stop.line + lineBreaks u, 1⟩ := by
  -- the chunks have different lengths, so the induction is on the length of what is left in front
  induction hl : u.length using Nat.strongRecOn generalizing u cursor with
  | ind n ih =>
    obtain ⟨c, rest, rfl⟩ := List.exists_cons_of_ne_nil hu.ne_nil
    have hf : first names cursor c (rest ++ t) = first names cursor c rest := by
      rw [first, first, Shape.first_append hu hp]
    obtain ⟨v, hv⟩ := exists_chars_first_append names cursor c rest
    have hvt : (first names cursor c (rest ++ t)).chars ++ (v ++ t) = c :: (rest ++ t) := by
      rw [hf, ← List.append_assoc, hv, List.cons_append]
    have hc := first_cases cursor hv
    rw [List.cons_append, cutFrom_of_append_eq cursor hv, cutFrom_of_append_eq cursor hvt, hf]
    by_cases hn : v = []
    · subst hn
      rw [List.append_nil] at hv
      rcases hc with ⟨w, hw, hs, hb⟩ | ⟨hb, -⟩
      · exact ⟨[], _, w, rfl, hw, rfl, by rw [hs, hb]; rfl⟩
      · obtain ⟨b, hm, hbr⟩ := hu.exists_mem
        rw [hb b (hv ▸ hm)] at hbr
        cases hbr
    · have hl' : v.length < n := by
        obtain ⟨m, hm⟩ := chars_first names cursor c rest
        rw [← hl, ← hv, List.length_append, hm, List.length_cons]
        omega
      -- the end of what is left is the end of the whole
      have hvp : Parts v t := by
        rintro ⟨h, h'⟩
        refine hp ⟨?_, h'⟩
        rw [← hv, List.getLast?_append, h]
        rfl
      obtain ⟨before, last, w, h₁, hw, h₂, hs⟩ :=
        ih v.length hl' ((hv ▸ hu).of_append hn) hvp (first names cursor c rest).cursor rfl
      refine ⟨_ :: before, last, w, by rw [h₁]; rfl, hw, by rw [h₂]; rfl, ?_⟩
      rw [hs]
      rcases hc with ⟨-, -, hs, hb⟩ | ⟨-, hs, hb⟩
      · rw [hs, hb, Nat.add_assoc]
      · rw [hs, hb]

end Chunk

end LineCalc
