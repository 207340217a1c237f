import LineCalc.Proofs.Grammar.Phrase
import LineCalc.Proofs.Reading.Numbered

/-!
# Along a line

A comment goes on up to the end of its line, so that nothing stands behind it on the line. What is
read on one line, be it a token or a diagnostic, starts further and further to the right.
-/

namespace LineCalc

variable {names : NameGrammar} {source : String}

/-! ### Behind a comment -/

/-- What stands behind a run does not belong to it. -/
theorem head?_drop_runLength {p : Char → Bool} {text : List Char} {c : Char}
    (h : (text.drop (runLength p text)).head? = some c) : p c = false := by
  induction text with
  | nil => cases h
  | cons a text ih =>
    by_cases ha : p a = true
    · exact ih (by simpa [runLength, ha] using h)
    · obtain rfl : a = c := by simpa [runLength, ha] using h
      simpa using ha

theorem head?_drop_commentLength {text : List Char} {n : Nat} {c : Char}
    (h : commentLength? text = some n) (hc : (text.drop n).head? = some c) : isLineBreak c = true := by
  unfold commentLength? at h
  split at h
  · rename_i rest
    obtain rfl := Option.some.inj h
    rw [Nat.add_comm] at hc
    have hrun : (fun c => !isLineBreak c) c = false := head?_drop_runLength hc
    simpa using hrun
  · cases h

namespace Chunk

theorem kind_of_tokenOf {lexeme : String} {span : Span} {kind : TokenKind}
    {payload : Option Payload} {t : Token} (h : tokenOf lexeme span kind payload = .ok t) :
    t.kind = kind := by
  cases payload with
  | none => cases h
  | some payload =>
    obtain rfl := Except.ok.inj h
    rfl

/-- A token of a kind that only one rule has was matched by that rule. -/
theorem exists_meaning {chunk : Chunk} {t : Token} (h : chunk.item? = some (.ok t)) :
    ∃ rule lexeme payload, chunk.shape = .matched rule lexeme ∧
      meaning? lexeme rule = some (t.kind, payload) := by
  obtain ⟨shape, cursor⟩ := chunk
  cases shape with
  | illegal c => cases h
  | matched rule lexeme =>
    obtain ⟨⟨kind, payload⟩, hm, ht⟩ := Option.map_eq_some_iff.mp h
    rw [kind_of_tokenOf ht]
    exact ⟨rule, lexeme, payload, rfl, hm⟩

theorem shape_of_comment {chunk : Chunk} {t : Token} (h : chunk.item? = some (.ok t))
    (hk : t.kind = .comment) : ∃ lexeme, chunk.shape = .matched .comment lexeme := by
  obtain ⟨rule, lexeme, payload, hs, hm⟩ := exists_meaning h
  rw [hk] at hm
  cases rule <;> first | exact ⟨lexeme, hs⟩ | cases hm

/-- A chunk that starts with a line break is one. -/
theorem exists_item?_first {c : Char} (hc : isLineBreak c = true) (cursor : Cursor)
    (rest : List Char) :
    ∃ t, (first names cursor c rest).item? = some (.ok t) ∧ t.kind = .newLine := by
  rcases Shape.first_cases names c rest with hin | ⟨w, v, hw, -, -⟩
  · obtain ⟨n, hn⟩ := Shape.chars_first names c rest
    rw [hin c (by simp [hn])] at hc
    cases hc
  · have hs : (first names cursor c rest).shape = .matched .newLine w := hw
    refine ⟨⟨.newLine, .none, String.ofList w, (first names cursor c rest).span⟩, ?_, rfl⟩
    unfold item?
    rw [hs]
    rfl

/-- Behind a chunk that is a comment the line ends. -/
theorem isLineBreak_of_comment {cursor : Cursor} {c b : Char} {rest lexeme : List Char}
    (hs : (first names cursor c rest).shape = .matched .comment lexeme)
    (hb : ((c :: rest).drop (first names cursor c rest).chars.length).head? = some b) :
    isLineBreak b = true := by
  have hf : Shape.first names c rest = .matched .comment lexeme := hs
  rw [chars, hs] at hb
  unfold Shape.first at hf
  split at hf
  · rename_i rule n hr
    obtain ⟨rfl, rfl⟩ := Shape.matched.inj hf
    have hl : commentLength? (c :: rest) = some n := Rule.length?_of_first? hr
    have hle := length_of_commentLength? hl
    rw [Shape.chars, List.length_take, Nat.min_eq_left hle] at hb
    exact head?_drop_commentLength hl hb
  · cases hf

end Chunk

namespace Reader

variable {tally : ReadTally} {blanks : List Chunk} {cursor : Cursor} {text : List Char} {t : Token}

/-- When a comment was read, the reader stands at the end of the line. -/
theorem rest_of_comment (h : (read names tally blanks cursor text).1.item = .ok t)
    (hk : t.kind = .comment) :
    (read names tally blanks cursor text).2.ended = false ∧
      ∀ c, (read names tally blanks cursor text).2.rest.head? = some c → isLineBreak c = true := by
  fun_induction read names tally blanks cursor text with
  | case1 blanks cursor r =>
    obtain rfl := Except.ok.inj h
    cases hk
  | case2 blanks cursor c rest chunk left item hi r =>
    obtain rfl : item = .ok t := h
    obtain ⟨lexeme, hs⟩ := Chunk.shape_of_comment hi hk
    exact ⟨rfl, fun b hb => Chunk.isLineBreak_of_comment hs hb⟩
  | case3 blanks cursor c rest chunk left hi ih => exact ih h

theorem exists_read_endsLine (names : NameGrammar) (tally : ReadTally) (cursor : Cursor)
    (h : ∀ c, text.head? = some c → isLineBreak c = true) :
    ∃ t, (read names tally [] cursor text).1.item = .ok t ∧ t.kind.endsLine = true := by
  cases text with
  | nil =>
    rw [read]
    exact ⟨_, rfl, rfl⟩
  | cons c rest =>
    obtain ⟨t, hi, hk⟩ : ∃ t, (Chunk.first names cursor c rest).item? = some (.ok t) ∧
        t.kind = .newLine := Chunk.exists_item?_first (h c rfl) cursor rest
    refine ⟨t, ?_, by rw [hk]; rfl⟩
    rw [read]
    simp only [hi]

end Reader

namespace Reading

variable {done more : List Reading} {r : Reading} {t : Token}

/-- Behind a comment comes the end of its line. -/
theorem exists_behind_comment (h : ofText names source = done ++ r :: more) (hr : r.item = .ok t)
    (hk : t.kind = .comment) :
    ∃ r' more' u, more = r' :: more' ∧ r'.item = .ok u ∧ u.kind.endsLine = true := by
  have hs := Reader.readings_after names done.length (Reader.ofText source)
  rw [Reader.readings_ofText, h, List.drop_left] at hs
  generalize Reader.after names done.length (Reader.ofText source) = s at hs
  have he : s.ended = false := by
    cases he : s.ended with
    | false => rfl
    | true =>
      rw [Reader.readings, if_pos he] at hs
      cases hs
  -- the reader reads the comment, and then what stands behind it
  rw [Reader.readings, he, Reader.readFrom_eq_read names s.tally] at hs
  obtain ⟨hfirst, hmore⟩ := List.cons.inj hs
  rw [← hfirst] at hr
  obtain ⟨hended, hbreak⟩ := Reader.rest_of_comment hr hk
  generalize (Reader.read names s.tally [] s.cursor s.rest).2 = s' at hmore hended hbreak
  rw [Reader.readings, hended, Reader.readFrom_eq_read names s'.tally] at hmore
  obtain ⟨u, hu, hku⟩ := Reader.exists_read_endsLine names s'.tally s'.cursor hbreak
  exact ⟨_, _, u, hmore.symm, hu, hku⟩

end Reading

/-- Behind every comment among the tokens comes the end of its line. -/
def Tidy (toks : List Token) : Prop :=
  ∀ before t post, toks = before ++ t :: post → t.kind = .comment →
    ∃ u post', post = u :: post' ∧ u.kind.endsLine = true

theorem Tidy.of_append {toks toks' : List Token} (h : Tidy (toks ++ toks')) : Tidy toks' := by
  intro before t post he hk
  exact h (toks ++ before) t post (by rw [he, List.append_assoc]) hk

theorem Reading.tidy_ofText (names : NameGrammar) (source : String) :
    Tidy (tokens (ofText names source)) := by
  intro before t post he hk
  obtain ⟨done, r, more, h, hr, -, rfl⟩ := exists_of_tokens_eq he
  obtain ⟨r', more', u, rfl, hu, hku⟩ := exists_behind_comment h hr hk
  obtain ⟨chunks, item⟩ := r'
  obtain rfl : item = .ok u := hu
  exact ⟨u, tokens more', rfl, hku⟩

/-! ### Columns -/

namespace Reading

variable {done mid more : List Reading} {r r' : Reading} {chunk : Chunk}

theorem span_of_token? {r : Reading} {t : Token} (h : r.token? = some t) : r.span = t.span := by
  obtain ⟨chunks, item⟩ := r
  cases item with
  | ok t' => exact congrArg Token.span (Option.some.inj h)
  | error d => cases h

theorem span_of_diagnostic? {r : Reading} {d : Diagnostic} (h : r.diagnostic? = some d) :
    r.span = d.span := by
  obtain ⟨chunks, item⟩ := r
  cases item with
  | ok t => cases h
  | error d' => exact congrArg Diagnostic.span (Option.some.inj h)

/-- A chunk has no line break in it, unless it is one. -/
theorem inside_of_mem_chunks (h : chunk ∈ (ofText names source).flatMap chunks)
    (hl : ∀ w, chunk.shape ≠ .matched .newLine w) : ∀ c ∈ chunk.chars, isLineBreak c = false := by
  rw [ofText, ofChunks, flatMap_chunks_readFrom, List.nil_append] at h
  obtain ⟨before, after, hc⟩ := List.append_of_mem h
  obtain ⟨place, c, rest, -, rfl, -⟩ := Chunk.exists_of_cutFrom_eq hc
  rcases Shape.first_cases names c rest with hin | ⟨w, v, hw, -, -⟩
  · exact hin
  · exact absurd hw (hl w)

theorem shape_ne_of_item? {item : Except Diagnostic Token} (hi : chunk.item? = some item)
    (hl : (itemTally item).lines = 0) (w : List Char) : chunk.shape ≠ .matched .newLine w := by
  intro hs
  rw [lines_of_item? hi, Chunk.lines_eq_one hs] at hl
  cases hl

theorem shape_ne_of_blank (hi : chunk.item? = none) (w : List Char) :
    chunk.shape ≠ .matched .newLine w := by
  intro hs
  have hl := lines_of_blank hi
  rw [Chunk.lines_eq_one hs] at hl
  cases hl

/-- The blanks in front of a reading break no line. -/
theorem inside_of_blanks {u : List Char} {blanks : List Chunk} {own : Option Chunk}
    (hr : r ∈ ofText names source) (hp : r.Placed u blanks own) :
    ∀ c ∈ blanks.flatMap Chunk.chars, isLineBreak c = false := by
  intro c hc
  obtain ⟨chunk, hchunk, hc⟩ := List.mem_flatMap.mp hc
  have hmem : chunk ∈ (ofText names source).flatMap chunks :=
    List.mem_flatMap.mpr ⟨r, hr, by rw [hp.chunks]; exact List.mem_append_left _ hchunk⟩
  exact inside_of_mem_chunks hmem (shape_ne_of_blank (hp.passed chunk hchunk)) c hc

/-- Nor does a reading, unless it is a line break. -/
theorem inside_of_newLines (h : ofText names source = done ++ r :: more)
    (hr : newLines (tokens [r]) = 0) : ∀ c ∈ text [r], isLineBreak c = false := by
  have hmem : r ∈ ofText names source := by simp [h]
  obtain ⟨blanks, own, hp⟩ := exists_placed h
  rw [← lines_itemTally] at hr
  intro c hc
  rw [text_singleton, hp.chunks, List.flatMap_append] at hc
  rcases List.mem_append.mp hc with hc | hc
  · exact inside_of_blanks hmem hp c hc
  · cases own with
    | none => cases hc
    | some chunk =>
      have hc : c ∈ chunk.chars := by simpa using hc
      have hchunk : chunk ∈ (ofText names source).flatMap chunks :=
        List.mem_flatMap.mpr ⟨r, hmem, by rw [hp.chunks]; simp⟩
      exact inside_of_mem_chunks hchunk (shape_ne_of_item? hp.item hr) c hc

theorem inside_of_newLines_eq_zero (h : ofText names source = done ++ (mid ++ more))
    (hm : newLines (tokens mid) = 0) : ∀ c ∈ text mid, isLineBreak c = false := by
  induction mid generalizing done with
  | nil =>
    intro c hc
    cases hc
  | cons r mid ih =>
    have hm' : newLines (tokens [r]) + newLines (tokens mid) = 0 := by
      rw [← newLines_append, ← tokens_append]
      exact hm
    intro c hc
    rw [text_cons] at hc
    rcases List.mem_append.mp hc with hc | hc
    · exact inside_of_newLines (by rw [h]; rfl) (by omega) c hc
    · have h' : ofText names source = (done ++ [r]) ++ (mid ++ more) := by rw [h]; simp
      exact ih h' (by omega) c hc

/-- Over characters that end no line the position moves along the line. -/
theorem behind_append_inside (u : List Char) {w : List Char}
    (hw : ∀ c ∈ w, isLineBreak c = false) :
    Position.behind (u ++ w) = ⟨(Position.behind u).line, (Position.behind u).column + w.length⟩ := by
  apply Position.behind_append hw
  rintro ⟨-, hn⟩
  have := hw '\n' (List.mem_of_head? hn)
  cases this

/-- A reading starts on the line that the tokens in front of it tell. -/
theorem line_start (h : ofText names source = done ++ r :: more) :
    r.span.start.line = 1 + newLines (tokens done) := by
  obtain ⟨blanks, own, hp⟩ := exists_placed h
  rw [hp.span]
  show 1 + lineBreaks _ = _
  rw [hp.level, lineBreaks_text h]

/-- A reading with others behind it has a chunk of its own. -/
theorem exists_own {u : List Char} {blanks : List Chunk} {own : Option Chunk}
    (h : ofText names source = done ++ r :: more) (hmore : more ≠ []) (hp : r.Placed u blanks own) :
    ∃ chunk, own = some chunk ∧ chunk.chars ≠ [] := by
  cases own with
  | some chunk =>
    have hchunk : chunk ∈ (ofText names source).flatMap chunks :=
      List.mem_flatMap.mpr ⟨r, by simp [h], by rw [hp.chunks]; simp⟩
    exact ⟨chunk, rfl, chars_ne_nil_of_mem hchunk⟩
  | none =>
    -- the end of the input would not be the last reading
    obtain ⟨rs, taken, place, ho, hproper⟩ := exists_of_ofText names source
    obtain ⟨end', hitem⟩ := hp.item
    obtain ⟨mid, last, rfl⟩ : ∃ mid last, more = mid ++ [last] :=
      ⟨_, _, (List.dropLast_append_getLast hmore).symm⟩
    have hrs : rs ++ [⟨taken, .ok (endToken place)⟩] = (done ++ r :: mid) ++ [last] := by
      rw [← ho, h]
      simp
    obtain ⟨rfl, -⟩ := List.append_inj' hrs rfl
    have := hproper r (by simp)
    rw [Proper, hitem] at this
    exact absurd rfl this.2

/-- Of two readings on one line the second one starts further to the right. -/
theorem column_lt (h : ofText names source = done ++ r :: (mid ++ r' :: more))
    (hm : newLines (tokens (r :: mid)) = 0) : r.span.start.column < r'.span.start.column := by
  obtain ⟨blanks, own, hp⟩ := exists_placed h
  have h' : ofText names source = (done ++ r :: mid) ++ r' :: more := by rw [h]; simp
  obtain ⟨blanks', own', hp'⟩ := exists_placed h'
  obtain ⟨chunk, rfl, hne⟩ := exists_own h (by simp) hp
  -- between the two starts stand the chunk of the first, what was read in between, and blanks
  have hr : text [r] = blanks.flatMap Chunk.chars ++ chunk.chars := by
    rw [text_singleton, hp.chunks]
    simp
  have hbetween : text (done ++ r :: mid) ++ blanks'.flatMap Chunk.chars =
      (text done ++ blanks.flatMap Chunk.chars) ++
        (chunk.chars ++ text mid ++ blanks'.flatMap Chunk.chars) := by
    rw [text_append, text_cons, hr]
    simp
  have hinside : ∀ c ∈ chunk.chars ++ text mid ++ blanks'.flatMap Chunk.chars,
      isLineBreak c = false := by
    have hmid : ∀ c ∈ text (r :: mid), isLineBreak c = false := inside_of_newLines_eq_zero h hm
    rw [text_cons, hr, List.append_assoc, List.forall_mem_append] at hmid
    have hmem : r' ∈ ofText names source := by simp [h]
    exact List.forall_mem_append.mpr ⟨hmid.2, inside_of_blanks hmem hp'⟩
  have hpos := List.length_pos_iff.mpr hne
  rw [hp.span, hp'.span, hbetween, behind_append_inside _ hinside]
  show (Position.behind (text done ++ blanks.flatMap Chunk.chars)).column <
    (Position.behind (text done ++ blanks.flatMap Chunk.chars)).column +
      (chunk.chars ++ text mid ++ blanks'.flatMap Chunk.chars).length
  rw [List.length_append, List.length_append]
  omega

/-- No two readings of a text start together. -/
theorem start_ne (h : ofText names source = done ++ r :: (mid ++ r' :: more)) :
    r.span.start ≠ r'.span.start := by
  intro he
  by_cases hm : newLines (tokens (r :: mid)) = 0
  · have hlt := column_lt h hm
    rw [he] at hlt
    exact Nat.lt_irrefl _ hlt
  · have h' : ofText names source = (done ++ r :: mid) ++ r' :: more := by rw [h]; simp
    have hline := line_start h'
    rw [← he, line_start h, tokens_append, newLines_append] at hline
    omega

theorem nodup_starts (names : NameGrammar) (source : String) :
    ((tokens (ofText names source)).map (·.span.start)).Nodup := by
  -- the starts of every part at the end of the text are different
  suffices hsuffix : ∀ suffix done, ofText names source = done ++ suffix →
      suffix.Pairwise fun r r' => r.span.start ≠ r'.span.start by
    rw [List.Nodup, List.pairwise_map, tokens, List.pairwise_filterMap]
    refine (hsuffix _ [] rfl).imp fun {r r'} hne t ht t' ht' => ?_
    rwa [span_of_token? ht, span_of_token? ht'] at hne
  intro suffix
  induction suffix with
  | nil => exact fun _ _ => .nil
  | cons r suffix ih =>
    intro done he
    refine List.pairwise_cons.mpr ⟨fun r' hr' => ?_, ih (done ++ [r]) (by rw [he]; simp)⟩
    obtain ⟨mid, post, rfl⟩ := List.append_of_mem hr'
    exact start_ne he

end Reading

end LineCalc
