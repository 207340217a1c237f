import LineCalc.Proofs.Evaluation.Likeness
import LineCalc.Proofs.Reading.Words

/-!
# Line feeds in the place of line breaks

With a line feed in the place of each line break a text is cut in the same way: the chunks are the same
and stand at the same places, but for those of the line breaks themselves. The text is shorter by a
character for each pair of a carriage return and a line feed.
-/

namespace LineCalc

/-- The text with a line feed in the place of each line break. -/
def lineFeeds : List Char → List Char
  | '\r' :: '\n' :: rest => '\n' :: lineFeeds rest
  | '\r' :: rest => '\n' :: lineFeeds rest
  | c :: rest => c :: lineFeeds rest
  | [] => []

/-- How many line breaks of the text are a carriage return and a line feed. -/
def pairedBreaks : List Char → Nat
  | '\r' :: '\n' :: rest => 1 + pairedBreaks rest
  | _ :: rest => pairedBreaks rest
  | [] => 0

variable {names : NameGrammar} {place place' : Cursor} {rule : Rule} {c : Char}
variable {text rest rest' v w : List Char}

/-! ### Texts -/

theorem lineFeeds_cons (hc : isLineBreak c = false) (rest : List Char) :
    lineFeeds (c :: rest) = c :: lineFeeds rest := by
  rw [lineFeeds]
  · rintro - rfl -
    cases hc
  · rintro rfl
    cases hc

theorem lineFeeds_append (hw : ∀ c ∈ w, isLineBreak c = false) (rest : List Char) :
    lineFeeds (w ++ rest) = w ++ lineFeeds rest := by
  induction w with
  | nil => rfl
  | cons c w ih =>
    rw [List.forall_mem_cons] at hw
    rw [List.cons_append, lineFeeds_cons hw.1, ih hw.2, List.cons_append]

theorem lineFeeds_lineBreak (h : LineBreak w v) : lineFeeds (w ++ v) = '\n' :: lineFeeds v := by
  rcases h with rfl | rfl | ⟨rfl, hv⟩
  · rfl
  · rfl
  · cases v with
    | nil => rfl
    | cons c v =>
      rw [List.singleton_append, lineFeeds]
      simpa using hv

theorem LineBreak.of_prefix (h : LineBreak w rest) (hv : v <+: rest) : LineBreak w v := by
  refine h.imp_right (.imp_right fun ⟨hw, hrest⟩ => ⟨hw, fun hhead => hrest ?_⟩)
  obtain ⟨v, rfl⟩ := List.head?_eq_some_iff.mp hhead
  obtain ⟨tail, rfl⟩ := hv
  rfl

/-- Where a line feed stands, a line broke before. -/
theorem exists_lineFeeds_eq (hc : isLineBreak c = true) (rest : List Char) :
    ∃ tail, lineFeeds (c :: rest) = '\n' :: tail := by
  obtain rfl | rfl : c = '\n' ∨ c = '\r' := by simpa [isLineBreak] using hc
  · exact ⟨_, rfl⟩
  · cases rest with
    | nil => exact ⟨_, rfl⟩
    | cons d rest =>
      by_cases hd : d = '\n'
      · subst hd
        exact ⟨_, rfl⟩
      · exact ⟨_, lineFeeds_lineBreak (.inr (.inr ⟨rfl, by simpa using hd⟩))⟩

theorem length_lineFeeds (text : List Char) :
    (lineFeeds text).length + pairedBreaks text = text.length := by
  fun_induction pairedBreaks text with
  | case1 rest ih =>
    rw [lineFeeds, List.length_cons, List.length_cons, List.length_cons, ← ih]
    omega
  | case2 c rest hpair ih =>
    have hlength : (lineFeeds (c :: rest)).length = (lineFeeds rest).length + 1 := by
      by_cases hc : c = '\r'
      · subst hc
        rw [lineFeeds, List.length_cons]
        exact fun rest' hr => hpair rest' rfl hr
      · rw [lineFeeds, List.length_cons]
        · exact fun _ hr => absurd hr hc
        · exact hc
    rw [hlength, List.length_cons, ← ih]
    omega
  | case3 => rfl

example : lineFeeds ['\r', '\r', '\n', '\n', '\r'] = ['\n', '\n', '\n', '\n'] ∧
    pairedBreaks ['\r', '\r', '\n', '\n', '\r'] = 1 := by decide

/-! ### What is in front of a line feed -/

theorem severs_lineFeeds (text : List Char) : Severs isLineBreak text (lineFeeds text) := by
  intro w hw hp
  induction w generalizing text with
  | nil => exact List.nil_prefix
  | cons d w ih =>
    rw [List.forall_mem_cons] at hw
    cases text with
    | nil => cases List.prefix_nil.mp hp
    | cons c rest =>
      by_cases hc : isLineBreak c = true
      · obtain ⟨tail, ht⟩ := exists_lineFeeds_eq hc rest
        rw [ht] at hp
        obtain ⟨rfl, -⟩ := List.cons_prefix_cons.mp hp
        cases hw.1
      · rw [Bool.not_eq_true] at hc
        rw [lineFeeds_cons hc] at hp
        obtain ⟨rfl, hrest⟩ := List.cons_prefix_cons.mp hp
        exact List.cons_prefix_cons.mpr ⟨rfl, ih rest hw.2 hrest⟩

theorem lineFeeds_severs (text : List Char) : Severs isLineBreak (lineFeeds text) text := by
  rintro w hw ⟨tail, rfl⟩
  rw [lineFeeds_append hw]
  exact List.prefix_append ..

namespace Rule

/-- Between texts that differ in their line breaks only, a lexeme in front of them stays what it is. -/
theorem first?_of_breaks (h : first? names (w ++ rest) = some (rule, w.length)) (hr : rule ≠ .newLine)
    (hs : Severs isLineBreak rest rest') (hs' : Severs isLineBreak rest' rest) :
    first? names (w ++ rest') = some (rule, w.length) := by
  refine first?_of_severed separates_isLineBreak h hs (fun r hf _ => avoids_isLineBreak ?_) ?_ ?_
  · rintro rfl
    exact hr (eq_of_family_eq hf.symm (.inr (.inl rfl)))
  · rintro rfl c hc
    exact (hs.head?_eq hc).elim id (isLineBreak_of_comment h)
  · rintro rfl f hw
    refine Bool.eq_false_iff.mpr fun he => ?_
    have hend := hs'.wordEndsBefore separates_isLineBreak he
    rw [wordEndsBefore_of_ident hw h] at hend
    cases hend

theorem first?_lineFeeds (h : first? names (w ++ rest) = some (rule, w.length)) (hr : rule ≠ .newLine) :
    first? names (w ++ lineFeeds rest) = some (rule, w.length) :=
  first?_of_breaks h hr (severs_lineFeeds rest) (lineFeeds_severs rest)

theorem length?_newLine_eq_none (hc : isLineBreak c = false) (rest : List Char) :
    Rule.newLine.length? names (c :: rest) = none := by
  rw [length?, lineBreakLength?]
  · intro _ h
    cases h
    cases hc
  · intro _ h
    cases h
    cases hc
  · intro _ h
    cases h
    cases hc

theorem first?_lineFeeds_eq_none (h : first? names (c :: rest) = none) :
    first? names (c :: lineFeeds rest) = none := by
  refine Option.eq_none_iff_forall_ne_some.mpr ?_
  rintro ⟨rule, n⟩ hf
  have hc := Chunk.isLineBreak_of_illegal h
  have hl := length?_of_first? hf
  have hr : rule ≠ .newLine := by
    rintro rfl
    rw [length?_newLine_eq_none hc] at hl
    cases hl
  -- the lexeme was there before, in front of what the line feeds come from
  obtain ⟨w, tail, ht, rfl⟩ : ∃ w tail, c :: lineFeeds rest = w ++ tail ∧ n = w.length :=
    ⟨_, _, (List.take_append_drop n _).symm, (List.length_take_of_le (length_of_length? hl)).symm⟩
  have hw := avoids_isLineBreak hr _ _ hl
  rw [ht, List.take_left] at hw
  obtain ⟨front, hfront⟩ :=
    (severs_lineFeeds rest).append_left [c] w hw ⟨tail, ht.symm⟩
  have htail : tail = lineFeeds front := by
    refine List.append_cancel_left (show w ++ tail = w ++ lineFeeds front from ?_)
    rw [← ht, ← lineFeeds_append hw, hfront, List.singleton_append, lineFeeds_cons hc]
  rw [ht, htail] at hf
  have hagain := first?_of_breaks hf hr (lineFeeds_severs front) (severs_lineFeeds front)
  rw [hfront, List.singleton_append, h] at hagain
  cases hagain

theorem lineBreak_of_first? (h : first? names (w ++ rest) = some (.newLine, w.length)) :
    LineBreak w rest := by
  have hl : lineBreakLength? (w ++ rest) = some w.length := length?_of_first? h
  unfold lineBreakLength? at hl
  split at hl
  · rename_i v hw
    obtain ⟨rfl, rfl⟩ := List.append_inj
      (show w ++ rest = ['\r', '\n'] ++ v from hw) (Option.some.inj hl).symm
    exact .inl rfl
  · rename_i v hn hw
    obtain ⟨rfl, rfl⟩ := List.append_inj
      (show w ++ rest = ['\r'] ++ v from hw) (Option.some.inj hl).symm
    refine .inr (.inr ⟨rfl, fun hv => ?_⟩)
    obtain ⟨v, rfl⟩ := List.head?_eq_some_iff.mp hv
    exact hn v rfl
  · rename_i v hw
    obtain ⟨rfl, rfl⟩ := List.append_inj
      (show w ++ rest = ['\n'] ++ v from hw) (Option.some.inj hl).symm
    exact .inr (.inl rfl)
  · cases hl

end Rule

/-! ### Chunk by chunk -/

/-- Behind every line break the next line starts. -/
theorem Cursor.span_lineBreak (h : LineBreak w v) (place : Cursor) :
    (place.collapse.advanceOver w).span =
      ⟨place.span.stop, ⟨place.span.stop.line + 1, 1⟩⟩ := by
  rcases h with rfl | rfl | ⟨rfl, -⟩ <;> rfl

namespace Chunk

/-- A lexeme in front of line feeds. Only that of a line break is another one. -/
theorem exists_lexeme (h : Rule.first? names (w ++ rest) = some (rule, w.length)) :
    ∃ w', Rule.first? names (w' ++ lineFeeds rest) = some (rule, w'.length) ∧
      (rule ≠ .newLine → w' = w) ∧
      (∀ v, v <+: rest → lineFeeds (w ++ v) = w' ++ lineFeeds v) ∧
      ∀ {place place' : Cursor}, place.span.stop = place'.span.stop →
        (place.collapse.advanceOver w).span = (place'.collapse.advanceOver w').span := by
  by_cases hr : rule = .newLine
  · subst hr
    have hbreak := Rule.lineBreak_of_first? h
    refine ⟨['\n'], rfl, fun hr => absurd rfl hr, fun v hv => lineFeeds_lineBreak (hbreak.of_prefix hv),
      fun hp => ?_⟩
    rw [Cursor.span_lineBreak hbreak, hp]
    rfl
  · have hw : ∀ c ∈ w, isLineBreak c = false := by
      have hin := Rule.avoids_isLineBreak hr _ _ (Rule.length?_of_first? h)
      rwa [List.take_left] at hin
    exact ⟨w, Rule.first?_lineFeeds h hr, fun _ => rfl, fun v _ => lineFeeds_append hw v,
      fun hp => Cursor.span_collapse_advanceOver hp w⟩

/-- Chunks that are the same and stand at the same place, but that line breaks may differ. -/
structure LineFed (chunk chunk' : Chunk) : Prop where
  shape : chunk'.shape = chunk.shape ∨
    ∃ w w', chunk.shape = .matched .newLine w ∧ chunk'.shape = .matched .newLine w'
  span : chunk'.span = chunk.span

theorem lineFed_cutFrom (hp : place.span.stop = place'.span.stop) :
    List.Forall₂ LineFed (cutFrom names [] place 0 text)
      (cutFrom names [] place' 0 (lineFeeds text)) := by
  induction place, text using cut_induction names generalizing place' with
  | nil place => exact .nil
  | illegal place c rest h ih =>
    have hspan := Cursor.span_collapse_advanceOver hp [c]
    rw [lineFeeds_cons (isLineBreak_of_illegal h), cutFrom_illegal h,
      cutFrom_illegal (Rule.first?_lineFeeds_eq_none h)]
    exact .cons ⟨.inl rfl, hspan.symm⟩ (ih (congrArg Span.stop hspan))
  | matched place rule w rest h ih =>
    obtain ⟨w', h', hsame, hfeeds, hspan⟩ := exists_lexeme h
    have hspan := hspan hp
    rw [hfeeds rest List.prefix_rfl, cutFrom_matched h, cutFrom_matched h']
    refine .cons ⟨?_, hspan.symm⟩ (ih (congrArg Span.stop hspan))
    by_cases hr : rule = .newLine
    · exact .inr ⟨w, w', by rw [hr], by rw [hr]⟩
    · exact .inl (by rw [hsame hr])

theorem flatMap_chars_take (n : Nat) (place place' : Cursor) :
    ((cutFrom names [] place' 0 (lineFeeds text)).take n).flatMap chars =
      lineFeeds (((cutFrom names [] place 0 text).take n).flatMap chars) := by
  induction place, text using cut_induction names generalizing n place' with
  | nil place => simp [lineFeeds, cutFrom]
  | illegal place c rest h ih =>
    cases n with
    | zero => rfl
    | succ n =>
      have hc := isLineBreak_of_illegal h
      rw [lineFeeds_cons hc, cutFrom_illegal h, cutFrom_illegal (Rule.first?_lineFeeds_eq_none h)]
      simp only [List.take_succ_cons, List.flatMap_cons, ih]
      exact (lineFeeds_cons hc _).symm
  | matched place rule w rest h ih =>
    cases n with
    | zero => rfl
    | succ n =>
      obtain ⟨w', h', -, hfeeds, -⟩ := exists_lexeme h
      -- what the chunks taken hold is a beginning of the text behind the lexeme
      have hprefix : ((cutFrom names [] (place.collapse.advanceOver w) 0 rest).take n).flatMap chars <+:
          rest := by
        refine ⟨((cutFrom names [] (place.collapse.advanceOver w) 0 rest).drop n).flatMap chars, ?_⟩
        rw [← List.flatMap_append, List.take_append_drop, flatMap_chars_cutFrom, List.drop_zero]
      rw [hfeeds rest List.prefix_rfl, cutFrom_matched h, cutFrom_matched h']
      simp only [List.take_succ_cons, List.flatMap_cons, ih]
      exact (hfeeds _ hprefix).symm

end Chunk

/-! ### What is read -/

/-- Tokens that are the same and stand at the same place, but that lexemes of line breaks may differ. -/
structure Token.LineFed (t t' : Token) : Prop where
  kind : t'.kind = t.kind
  payload : t'.payload = t.payload
  span : t'.span = t.span
  lexeme : t.kind ≠ .newLine → t'.lexeme = t.lexeme

/-- The same is read from chunks that are the same, but for line breaks. -/
structure Reading.LineFed (r r' : Reading) : Prop where
  chunks : List.Forall₂ Chunk.LineFed r.chunks r'.chunks
  item : ItemLike Eq Token.LineFed r.item r'.item

namespace Reading

variable {chunk chunk' : Chunk} {chunks chunks' blanks blanks' : List Chunk} {stop stop' : Cursor}

theorem ItemLike.of_eq (item : Except Diagnostic Token) : ItemLike Eq Token.LineFed item item := by
  cases item with
  | ok t => exact .ok ⟨rfl, rfl, rfl, fun _ => rfl⟩
  | error d => exact .error ⟨rfl, rfl⟩

theorem item?_lineFed (h : chunk.LineFed chunk') :
    Option.Rel (ItemLike Eq Token.LineFed) chunk.item? chunk'.item? := by
  obtain ⟨shape, place⟩ := chunk
  obtain ⟨shape', place'⟩ := chunk'
  obtain ⟨rfl | ⟨w, w', rfl, rfl⟩, hspan⟩ := h
  · rw [item?_congr hspan]
    cases Chunk.item? ⟨shape', place⟩ with
    | none => exact .none
    | some item => exact .some (.of_eq item)
  · exact .some (.ok ⟨rfl, rfl, hspan, fun hk => absurd rfl hk⟩)

theorem readFrom_lineFed (hstop : stop.span.stop = stop'.span.stop)
    (hb : List.Forall₂ Chunk.LineFed blanks blanks') (h : List.Forall₂ Chunk.LineFed chunks chunks') :
    List.Forall₂ LineFed (readFrom [] stop blanks chunks) (readFrom [] stop' blanks' chunks') := by
  induction h generalizing stop stop' blanks blanks' with
  | nil =>
    refine .cons ⟨hb, ?_⟩ .nil
    show ItemLike _ _ (.ok (endToken stop)) (.ok (endToken stop'))
    rw [endToken_congr hstop]
    exact .of_eq _
  | @cons chunk chunk' rest rest' hc hrest ih =>
    have hspan : chunk.cursor.span.stop = chunk'.cursor.span.stop :=
      (congrArg Span.stop hc.span).symm
    have htaken := List.rel_append hb (.cons hc .nil)
    have hitem := item?_lineFed hc
    rw [readFrom, readFrom]
    -- the two chunks mean something together, or neither of them does
    generalize chunk.item? = item at hitem
    generalize chunk'.item? = item' at hitem
    cases hitem with
    | none => exact ih hspan htaken
    | @some item item' hitem =>
      show List.Forall₂ LineFed (readFrom [⟨blanks ++ [chunk], item⟩] _ [] _)
        (readFrom [⟨blanks' ++ [chunk'], item'⟩] _ [] _)
      rw [readFrom_eq_append, readFrom_eq_append [_]]
      exact .cons ⟨htaken, hitem⟩ (ih hspan .nil)

/-- With line feeds in the place of line breaks the same is read, at the same places. -/
theorem lineFed_ofText (names : NameGrammar) (source : String) :
    List.Forall₂ LineFed (ofText names source)
      (ofText names (String.ofList (lineFeeds source.toList))) := by
  have hcut : List.Forall₂ Chunk.LineFed (Chunk.cut names source.toList)
      (Chunk.cut names (lineFeeds source.toList)) := Chunk.lineFed_cutFrom rfl
  rw [ofText, ofText, String.toList_ofList]
  exact readFrom_lineFed rfl .nil hcut

theorem countP_isMatched (h : List.Forall₂ Chunk.LineFed chunks chunks') :
    chunks'.countP Chunk.isMatched = chunks.countP Chunk.isMatched := by
  induction h with
  | nil => rfl
  | @cons chunk chunk' rest rest' hc hrest ih =>
    have hmatched : chunk'.isMatched = chunk.isMatched := by
      rcases hc.shape with hs | ⟨w, w', hs, hs'⟩
      · rw [Chunk.isMatched, Chunk.isMatched, hs]
      · rw [Chunk.isMatched, Chunk.isMatched, hs, hs']
    rw [List.countP_cons, List.countP_cons, ih, hmatched]

/-- Only characters are counted differently. -/
theorem LineFed.tally {r r' : Reading} (h : r.LineFed r') :
    r'.tally = { r.tally with chars := r'.tally.chars } := by
  rw [tally_eq, tally_eq, countP_isMatched h.chunks]
  have hi := h.item
  unfold isError
  generalize r.item = item at hi
  generalize r'.item = item' at hi
  cases hi with
  | ok ht => simp only [itemTally, ht.kind]
  | error hd => rfl

theorem flatMap_chunks_eq_take {source : String} {read more : List Reading}
    (h : ofText names source = read ++ more) : read.flatMap Reading.chunks =
      (Chunk.cut names source.toList).take (read.flatMap Reading.chunks).length := by
  have hwhole : (ofText names source).flatMap Reading.chunks = Chunk.cut names source.toList :=
    flatMap_chunks_readFrom ..
  rw [← hwhole, h, List.flatMap_append, List.take_left]

/-- What was read has line feeds in the place of line breaks. -/
theorem text_of_lineFed {source : String} {read more read' more' : List Reading}
    (h : ofText names source = read ++ more)
    (h' : ofText names (String.ofList (lineFeeds source.toList)) = read' ++ more')
    (hmore : List.Forall₂ LineFed more more') :
    Reading.text read' = lineFeeds (Reading.text read) := by
  have hlike := lineFed_ofText names source
  have hlength : read.length = read'.length := by
    have htotal := hlike.length_eq
    rw [h, h', List.length_append, List.length_append, hmore.length_eq] at htotal
    omega
  have hread : List.Forall₂ LineFed read read' := by
    have htake := List.forall₂_take read.length hlike
    rwa [h, h', List.take_left, hlength, List.take_left] at htake
  have hchunks : (read.flatMap Reading.chunks).length = (read'.flatMap Reading.chunks).length :=
    (List.rel_flatMap hread fun _ _ hr => hr.chunks).length_eq
  rw [Reading.text, Reading.text, flatMap_chunks_eq_take h', flatMap_chunks_eq_take h, ← hchunks,
    String.toList_ofList]
  exact Chunk.flatMap_chars_take ..

end Reading

/-- How a text corresponds to the one with line feeds. -/
def Likeness.lineFed : Likeness where
  place := Eq
  token := Token.LineFed
  reading := Reading.LineFed
  readTally a a' := a' = { a with chars := a'.chars }
  evalTally := Eq
  stores _ _ := True
  merge hp hq := by rw [hp, hq]
  kind ht := ht.kind
  payload ht := ht.payload
  found {t t'} ht := by
    unfold Found.ofToken
    rw [ht.kind]
    split
    · rfl
    · rfl
    · rename_i hk
      exact congrArg Found.token (ht.lexeme hk)
  span ht := ht.span.symm
  item hr := hr.item
  readTally_add {a a' r r'} ha hr := by
    rw [ha, hr.tally]
    rfl
  evalTally_add x ha := by rw [ha]
  stores_append _ _ := trivial

end LineCalc
