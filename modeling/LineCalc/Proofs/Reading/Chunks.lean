import LineCalc.Reading

/-!
# Chunks lie within the text

No rule reaches past the end of the text, so that each chunk is exactly what stands in the text at
its place. The cursor behind a chunk stands between two characters of the source, and a lexeme can
be cut wherever its decoding cuts it.
-/

namespace LineCalc

/-! ### No rule reaches past the text -/

section

variable {text rest word : List Char} {n : Nat}

theorem runLength_le (p : Char → Bool) (text : List Char) : runLength p text ≤ text.length :=
  List.Sublist.length_le (List.takeWhile_sublist p)

theorem le_of_positive? {n m : Nat} (h : positive? n = some m) : m = n := by
  unfold positive? at h
  split at h
  · cases h
  · exact (Option.some.inj h).symm

theorem length_of_lineBreakLength? (h : lineBreakLength? text = some n) : n ≤ text.length := by
  unfold lineBreakLength? at h
  split at h <;> first | cases h; simp | cases h

theorem length_of_commentLength? (h : commentLength? text = some n) : n ≤ text.length := by
  unfold commentLength? at h
  split at h
  · rename_i rest
    cases h
    have := runLength_le (fun c => !isLineBreak c) rest
    simp only [List.length_cons]
    omega
  · cases h

theorem length_of_nondecimalLength? (h : nondecimalLength? text = some n) : n ≤ text.length := by
  unfold nondecimalLength? at h
  split at h
  · rename_i mark rest
    simp only [List.length_cons]
    split at h
    · obtain ⟨m, hm, rfl⟩ := Option.map_eq_some_iff.mp h
      have := runLength_le isHexDigit rest
      have := le_of_positive? hm
      omega
    · split at h
      · obtain ⟨m, hm, rfl⟩ := Option.map_eq_some_iff.mp h
        have := runLength_le isOctalDigit rest
        have := le_of_positive? hm
        omega
      · cases h
  · cases h

theorem length_of_pointedLength? (h : pointedLength? text = some n) : n ≤ text.length := by
  unfold pointedLength? at h
  dsimp only at h
  split at h
  · rename_i rest hd
    split at h
    · cases h
    · cases h
      have hl := congrArg List.length hd
      have := runLength_le Char.isDigit rest
      simp only [List.length_drop, List.length_cons] at hl
      omega
  · cases h

theorem length_of_digitsLength? (h : digitsLength? text = some n) : n ≤ text.length :=
  le_of_positive? h ▸ runLength_le Char.isDigit text

theorem length_of_exponentLength? (h : exponentLength? text = some n) : n ≤ text.length := by
  unfold exponentLength? at h
  split at h
  · split at h
    · split at h
      · split at h
        · obtain ⟨m, hm, rfl⟩ := Option.map_eq_some_iff.mp h
          have := length_of_digitsLength? hm
          simp only [List.length_cons]
          omega
        · obtain ⟨m, hm, rfl⟩ := Option.map_eq_some_iff.mp h
          have := length_of_digitsLength? hm
          simp only [List.length_cons] at this ⊢
          omega
      · cases h
    · cases h
  · cases h

theorem length_of_scientificLength? (h : scientificLength? text = some n) : n ≤ text.length := by
  unfold scientificLength? at h
  obtain ⟨mantissa, hm, h⟩ := Option.bind_eq_some_iff.mp h
  obtain ⟨exponent, he, h⟩ := Option.bind_eq_some_iff.mp h
  have hx := length_of_exponentLength? he
  have hm : mantissa ≤ text.length := by
    cases hp : pointedLength? text with
    | some m =>
      rw [hp] at hm
      cases hm
      exact length_of_pointedLength? hp
    | none =>
      rw [hp] at hm
      exact length_of_digitsLength? hm
  cases h
  rw [List.length_drop] at hx
  omega

theorem eq_of_wordLength? (h : wordLength? word text = some n) :
    n = word.length ∧ word <+: text := by
  unfold wordLength? at h
  split at h
  · rename_i hw
    cases h
    exact ⟨rfl, List.isPrefixOf_iff_prefix.mp (Bool.and_eq_true_iff.mp hw).1⟩
  · cases h

theorem length_of_wordLength? (h : wordLength? word text = some n) : n ≤ text.length := by
  obtain ⟨rfl, hp⟩ := eq_of_wordLength? h
  exact hp.length_le

theorem length_of_signLength? {sign : Char} (h : signLength? sign text = some n) :
    n ≤ text.length := by
  unfold signLength? at h
  split at h
  · split at h
    · cases h
      simp
    · cases h
  · cases h

theorem NameGrammar.length_of_length? {names : NameGrammar} (h : names.length? text = some n) :
    n ≤ text.length := by
  unfold NameGrammar.length? at h
  split at h
  · rename_i c rest
    split at h
    · cases h
      have := runLength_le continuesName rest
      simp only [List.length_cons]
      omega
    · cases h
  · cases h
  · obtain ⟨name, -, hn⟩ := List.exists_of_findSome?_eq_some h
    exact length_of_wordLength? hn

end

namespace Rule

variable {names : NameGrammar} {text : List Char} {rule : Rule} {n : Nat}

theorem length_of_length? (h : rule.length? names text = some n) : n ≤ text.length := by
  cases rule with
  | whiteSpace => exact le_of_positive? h ▸ runLength_le isBlank text
  | newLine => exact length_of_lineBreakLength? h
  | comment => exact length_of_commentLength? h
  | nondecimal => exact length_of_nondecimalLength? h
  | scientific => exact length_of_scientificLength? h
  | float => exact length_of_pointedLength? h
  | number => exact length_of_digitsLength? h
  | func =>
    obtain ⟨f, -, hf⟩ := List.exists_of_findSome?_eq_some h
    exact length_of_wordLength? hf
  | ident => exact NameGrammar.length_of_length? h
  | equals | plus | minus | asterisk | slash | leftParen | rightParen =>
    exact length_of_signLength? h

theorem length?_of_first? (h : first? names text = some (rule, n)) :
    rule.length? names text = some n := by
  obtain ⟨r, -, hr⟩ := List.exists_of_findSome?_eq_some h
  obtain ⟨m, hm, he⟩ := Option.map_eq_some_iff.mp hr
  cases he
  exact hm

end Rule

/-! ### What lexemes are made of -/

namespace Chunk

theorem rawEndPos_ofList (text : List Char) :
    (String.ofList text).rawEndPos = ⟨byteLength text⟩ := by
  induction text with
  | nil => rfl
  | cons c rest ih =>
    have h : String.ofList (c :: rest) = String.singleton c ++ String.ofList rest := by
      rw [← List.singleton_append, String.ofList_append]
      rfl
    have hi : (String.ofList rest).utf8ByteSize = byteLength rest := congrArg (·.byteIdx) ih
    apply String.Pos.Raw.ext
    change (String.ofList (c :: rest)).utf8ByteSize = _
    rw [h, String.utf8ByteSize_append, hi, String.utf8ByteSize_singleton]
    simp [byteLength]

/-- A place behind some characters of a text is between two of them. -/
theorem isValid_byteLength {source : String} {text : List Char} (h : text <+: source.toList) :
    (⟨byteLength text⟩ : String.Pos.Raw).IsValid source := by
  obtain ⟨rest, h⟩ := h
  rw [← String.ofList_toList (s := source), ← h]
  refine String.Pos.Raw.isValid_ofList.mpr ⟨text.length, ?_⟩
  rw [List.take_left]
  exact (congrArg (·.byteIdx) (rawEndPos_ofList text)).symm

end Chunk

/-- The decoding of a lexeme of this rule finds what it looks for. A comment and a number with a mark
can be cut behind their first two bytes, of which the second is the mark; and every keyword is known.
-/
def Rule.Decodable (lexeme : List Char) : Rule → Prop
  | .comment | .nondecimal => (⟨1⟩ : String.Pos.Raw).IsValid (String.ofList lexeme) ∧
      (⟨2⟩ : String.Pos.Raw).IsValid (String.ofList lexeme)
  | .func => ∃ f, Func.ofKeyword? (String.ofList lexeme) = some f
  | _ => True

theorem Rule.isValid_cons_cons {a b : Char} (ha : a.utf8Size = 1) (hb : b.utf8Size = 1)
    (rest : List Char) :
    (⟨1⟩ : String.Pos.Raw).IsValid (String.ofList (a :: b :: rest)) ∧
      (⟨2⟩ : String.Pos.Raw).IsValid (String.ofList (a :: b :: rest)) := by
  have p₁ : [a] <+: (String.ofList (a :: b :: rest)).toList :=
    ⟨b :: rest, by rw [String.toList_ofList]; rfl⟩
  have p₂ : [a, b] <+: (String.ofList (a :: b :: rest)).toList :=
    ⟨rest, by rw [String.toList_ofList]; rfl⟩
  have h₁ := Chunk.isValid_byteLength p₁
  have h₂ := Chunk.isValid_byteLength p₂
  simp only [byteLength, ha, hb] at h₁ h₂
  exact ⟨h₁, h₂⟩

theorem Rule.decodable_of_length? {names : NameGrammar} {text : List Char} {rule : Rule} {n : Nat}
    (h : rule.length? names text = some n) : rule.Decodable (text.take n) := by
  cases rule with
  | comment =>
    simp only [Rule.length?, commentLength?] at h
    split at h
    · cases h
      rw [Nat.add_comm]
      exact Rule.isValid_cons_cons (by decide) (by decide) _
    · cases h
  | nondecimal =>
    -- whichever mark it is, the two characters in front of the digits take one byte each
    have hm : ∃ mark rest m, text = '0' :: mark :: rest ∧ n = 2 + m ∧ mark.utf8Size = 1 := by
      simp only [Rule.length?, nondecimalLength?] at h
      split at h
      · rename_i mark rest
        split at h
        · rename_i hx
          obtain ⟨m, -, rfl⟩ := Option.map_eq_some_iff.mp h
          exact ⟨mark, rest, m, rfl, rfl, by obtain rfl | rfl := hx <;> decide⟩
        · split at h
          · rename_i hx
            obtain ⟨m, -, rfl⟩ := Option.map_eq_some_iff.mp h
            exact ⟨mark, rest, m, rfl, rfl, by obtain rfl | rfl := hx <;> decide⟩
          · cases h
      · cases h
    obtain ⟨mark, rest, m, rfl, rfl, hm⟩ := hm
    rw [Nat.add_comm]
    exact Rule.isValid_cons_cons (by decide) hm _
  | func =>
    obtain ⟨f, -, hf⟩ := List.exists_of_findSome?_eq_some h
    obtain ⟨rfl, hp⟩ := eq_of_wordLength? hf
    refine ⟨f, Func.ofKeyword?_eq_some_iff.mpr ?_⟩
    rw [← List.prefix_iff_eq_take.mp hp, String.ofList_toList]
  | _ => trivial

/-! ### Cutting, chunk by chunk -/

namespace Chunk

variable {names : NameGrammar}

theorem cutFrom_skip (cursor : Cursor) (skip : Nat) (text : List Char) :
    cutFrom names [] cursor skip text = cutFrom names [] cursor 0 (text.drop skip) := by
  induction text generalizing skip with
  | nil => cases skip <;> rfl
  | cons c rest ih =>
    cases skip with
    | zero => rfl
    | succ skip =>
      rw [cutFrom, List.drop_succ_cons]
      exact ih skip

theorem exists_chars_first_append (names : NameGrammar) (cursor : Cursor) (c : Char) (rest : List Char) :
    (first names cursor c rest).chars <+: c :: rest := by
  obtain ⟨n, hn⟩ := chars_first names cursor c rest
  rw [hn, List.cons_prefix_cons]
  exact ⟨rfl, List.take_prefix n rest⟩

theorem chars_first_append_drop (cursor : Cursor) (c : Char) (rest : List Char) :
    (first names cursor c rest).chars ++
      (c :: rest).drop (first names cursor c rest).chars.length = c :: rest := by
  obtain ⟨t, ht⟩ := exists_chars_first_append names cursor c rest
  have hd : (c :: rest).drop (first names cursor c rest).chars.length = t := by
    rw [← ht, List.drop_left]
  rw [hd, ht]

/-- The first chunk is cut off, and then the rest is cut. -/
theorem cutFrom_cons (cursor : Cursor) (c : Char) (rest : List Char) :
    cutFrom names [] cursor 0 (c :: rest) = first names cursor c rest ::
      cutFrom names [] (first names cursor c rest).cursor 0
        ((c :: rest).drop (first names cursor c rest).chars.length) := by
  obtain ⟨n, hn⟩ := chars_first names cursor c rest
  rw [cutFrom, cutFrom_eq_append, List.reverse_singleton, List.singleton_append, cutFrom_skip]
  have hl : (first names cursor c rest).chars.length =
      (first names cursor c rest).chars.length - 1 + 1 := by rw [hn]; rfl
  rw [hl, List.drop_succ_cons, Nat.add_sub_cancel]

/-- Each chunk is the first one of what is left of the text in front of it. -/
theorem exists_of_cutFrom_eq {cursor : Cursor} {text : List Char} {before after : List Chunk}
    {chunk : Chunk} (h : cutFrom names [] cursor 0 text = before ++ chunk :: after) :
    ∃ (place : Cursor) (c : Char) (rest : List Char),
      text = before.flatMap chars ++ c :: rest ∧ chunk = first names place c rest ∧
      place.offset = cursor.offset + byteLength (before.flatMap chars) := by
  induction before generalizing cursor text with
  | nil =>
    cases text with
    | nil => cases h
    | cons c rest =>
      rw [cutFrom_cons] at h
      exact ⟨cursor, c, rest, rfl, (List.cons.inj h).1.symm, rfl⟩
  | cons b before ih =>
    cases text with
    | nil => cases h
    | cons c rest =>
      rw [cutFrom_cons, List.cons_append] at h
      obtain ⟨hb, htail⟩ := List.cons.inj h
      subst hb
      obtain ⟨place, c', rest', ht, hc, ho⟩ := ih htail
      refine ⟨place, c', rest', ?_, hc, ?_⟩
      · rw [List.flatMap_cons, List.append_assoc, ← ht, chars_first_append_drop]
      · rw [ho, List.flatMap_cons, byteLength_append, ← Nat.add_assoc]
        congr 1
        exact Cursor.offset_advanceOver _ _

/-- Where a chunk of a source is cut from it: the cursor stands between two characters in front of
it and behind it, and its lexeme is what the rule asked for, of which nothing is missing. -/
structure SliceOf (names : NameGrammar) (source : String) (before : List Chunk) (chunk : Chunk) :
    Prop where
  start : (⟨byteLength (before.flatMap chars)⟩ : String.Pos.Raw).IsValid source
  stop : (⟨chunk.cursor.offset⟩ : String.Pos.Raw).IsValid source
  offset : chunk.cursor.offset = byteLength (before.flatMap chars) + byteLength chunk.chars
  nonempty : chunk.chars ≠ []
  lexeme : ∀ rule lexeme, chunk.shape = .matched rule lexeme → rule.Decodable lexeme ∧
    ∃ rest, rule.length? names (lexeme ++ rest) = some lexeme.length ∧
      before.flatMap chars ++ (lexeme ++ rest) = source.toList

/-- Every chunk of a source is cut from it in this way. -/
theorem sliceOf_of_cut_eq {source : String} {before after : List Chunk} {chunk : Chunk}
    (h : cut names source.toList = before ++ chunk :: after) :
    SliceOf names source before chunk := by
  obtain ⟨place, c, rest, ht, hc, ho⟩ := exists_of_cutFrom_eq h
  obtain ⟨tail, hp⟩ := exists_chars_first_append names place c rest
  have ho : place.offset = byteLength (before.flatMap chars) := by rw [ho]; simp
  have hoff : chunk.cursor.offset =
      byteLength (before.flatMap chars) + byteLength chunk.chars := by
    rw [hc, ← ho]
    exact Cursor.offset_advanceOver _ _
  -- both ends are places between characters, and a lexeme is found again in what is cut
  refine ⟨isValid_byteLength ⟨c :: rest, ht.symm⟩, ?_, hoff, ?_, ?_⟩
  · rw [hoff, ← byteLength_append]
    refine isValid_byteLength ⟨tail, ?_⟩
    rw [ht, List.append_assoc, hc, hp]
  · obtain ⟨n, hn⟩ := chars_first names place c rest
    rw [hc, hn]
    simp
  · intro rule lexeme hs
    have hshape : Shape.first names c rest = .matched rule lexeme := by rw [← hs, hc]; rfl
    unfold Shape.first at hshape
    split at hshape
    · rename_i r n hf
      obtain ⟨rfl, rfl⟩ := Shape.matched.inj hshape
      have hn := Rule.length?_of_first? hf
      refine ⟨Rule.decodable_of_length? hn, (c :: rest).drop n, ?_, ?_⟩
      · rw [List.take_append_drop, List.length_take, Nat.min_eq_left (Rule.length_of_length? hn)]
        exact hn
      · rw [List.take_append_drop, ht]
    · cases hshape

end Chunk

end LineCalc
