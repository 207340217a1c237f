import LineCalc.Proofs.Reading.LineFeeds
import LineCalc.Proofs.Reading.Spread

/-!
# Texts without their comments

A comment goes on to the end of its line. Without it the chunks in front of it are what they were, since
it starts with a separator and a line break is one. So what is read of a line is the same up to the
comment, and where it stood the line ends.
-/

namespace LineCalc

/-- The text of some chunks, of which the comments are left out. -/
def Chunk.uncommented (chunks : List Chunk) : List Char :=
  (chunks.filter (!·.isComment)).flatMap chars

/-- The text without its comments. -/
def Reading.uncommented (names : NameGrammar) (source : String) : String :=
  String.ofList (Chunk.uncommented (Chunk.cut names source.toList))

/-- Nothing stands on the line any more. -/
def Breaks (text : List Char) : Prop := ∀ c, text.head? = some c → isLineBreak c = true

variable {names : NameGrammar} {place : Cursor} {rule : Rule} {c : Char} {chunk : Chunk}
variable {text tail tail' rest w u stop : List Char} {chunks more : List Chunk}

theorem breaks_nil : Breaks [] := nofun

theorem LineBreak.breaks (h : LineBreak w rest) : Breaks w := by
  intro c hc
  rcases h with rfl | rfl | ⟨rfl, -⟩
  all_goals
    obtain rfl := Option.some.inj hc
    rfl

theorem Breaks.severs (h : Breaks tail') (tail : List Char) : Severs isLineBreak tail tail' := by
  intro w hw hp
  cases w with
  | nil => exact List.nil_prefix
  | cons c w =>
    obtain ⟨v, rfl⟩ := hp
    have hc := h c rfl
    rw [hw c List.mem_cons_self] at hc
    cases hc

/-! ### Comments -/

/-- Two percent signs, and behind them nothing that ends a line. -/
def IsComment (w : List Char) : Prop :=
  ∃ body, w = '%' :: '%' :: body ∧ ∀ c ∈ body, isLineBreak c = false

theorem Rule.first?_percents (names : NameGrammar) (text : List Char) :
    first? names ('%' :: '%' :: text) =
      some (.comment, 2 + runLength (fun c => !isLineBreak c) text) := rfl

theorem IsComment.inside (h : IsComment w) : ∀ c ∈ w, isLineBreak c = false := by
  obtain ⟨body, rfl, hbody⟩ := h
  intro c hc
  rcases List.mem_cons.mp hc with rfl | hc
  · rfl
  · rcases List.mem_cons.mp hc with rfl | hc
    · rfl
    · exact hbody c hc

/-- It is found where its line ends behind it. -/
theorem IsComment.first? (h : IsComment w) (ht : Breaks tail) (names : NameGrammar) :
    Rule.first? names (w ++ tail) = some (.comment, w.length) := by
  obtain ⟨body, rfl, hbody⟩ := h
  have hrun : runLength (fun c => !isLineBreak c) (body ++ tail) = body.length := by
    have hall : ∀ c ∈ body, (!isLineBreak c) = true := fun c hc => by rw [hbody c hc]; rfl
    rw [runLength, List.takeWhile_append_of_pos hall]
    cases tail with
    | nil => simp
    | cons c tail => simp [ht c rfl]
  rw [List.cons_append, List.cons_append, Rule.first?_percents, hrun, List.length_cons,
    List.length_cons, Nat.add_comm]

theorem Rule.isComment_of_first? (h : first? names (w ++ rest) = some (.comment, w.length)) :
    IsComment w ∧ Breaks rest := by
  refine ⟨?_, fun c hc => isLineBreak_of_comment h hc⟩
  have hin := avoids_isLineBreak (by decide) _ _ (length?_of_first? h)
  rw [List.take_left] at hin
  have hl : commentLength? (w ++ rest) = some w.length := length?_of_first? h
  unfold commentLength? at hl
  split at hl
  · rename_i v hv
    have hpercents : ['%', '%'] <+: w ++ rest := ⟨v, hv.symm⟩
    have hlength : ['%', '%'].length ≤ w.length := by
      rw [← Option.some.inj hl]
      exact Nat.le_add_right ..
    obtain ⟨body, rfl⟩ :=
      List.prefix_of_prefix_length_le hpercents (List.prefix_append w rest) hlength
    exact ⟨body, rfl, fun c hc => hin c (List.mem_append_right _ hc)⟩
  · cases hl

theorem Text.wordEndsBefore_of_isComment (h : IsComment w) (rest : List Char) :
    wordEndsBefore (w ++ rest) = true := by
  obtain ⟨body, rfl, -⟩ := h
  rfl

theorem Breaks.wordEndsBefore (h : Breaks text) : Text.wordEndsBefore text = true := by
  cases text with
  | nil => rfl
  | cons c text =>
    rw [Text.wordEndsBefore, separates_isLineBreak c (h c rfl)]
    rfl

/-! ### What stands in front of a comment -/

/-- A word that does not end in front of `tail`, where one would, ends nowhere else either. -/
theorem Text.wordEndsBefore_congr (ht : wordEndsBefore tail = true) (ht' : wordEndsBefore tail' = true)
    (u : List Char) : wordEndsBefore (u ++ tail') = wordEndsBefore (u ++ tail) := by
  cases u with
  | nil => exact ht'.trans ht.symm
  | cons c u => rfl

namespace Rule

/-- A lexeme stays what it is when its line ends earlier. -/
theorem first?_of_breaks_behind (h : first? names (w ++ (u ++ tail)) = some (rule, w.length))
    (hc : rule ≠ .comment) (hn : rule ≠ .newLine) (ht : Text.wordEndsBefore tail = true)
    (hb : Breaks tail') : first? names (w ++ (u ++ tail')) = some (rule, w.length) := by
  refine first?_of_severed separates_isLineBreak h ((hb.severs tail).append_left u)
    (fun r hf _ => avoids_isLineBreak ?_) (fun hr => absurd hr hc) ?_
  · rintro rfl
    exact hn (eq_of_family_eq hf.symm (.inr (.inl rfl)))
  · rintro rfl f hw
    rw [Text.wordEndsBefore_congr ht hb.wordEndsBefore, wordEndsBefore_of_ident hw h]

theorem first?_eq_none_of_breaks_behind (h : first? names (c :: (u ++ tail)) = none)
    (ht : Text.wordEndsBefore tail = true) (hb : Breaks tail') :
    first? names (c :: (u ++ tail')) = none := by
  refine Option.eq_none_iff_forall_ne_some.mpr ?_
  rintro ⟨rule, n⟩ hf
  have hl := length?_of_first? hf
  have hr : rule ≠ .newLine := by
    rintro rfl
    rw [length?_newLine_eq_none (Chunk.isLineBreak_of_illegal h)] at hl
    cases hl
  -- the lexeme does not reach up to the end of the line, so it was there before
  obtain ⟨w, v, hv, rfl⟩ : ∃ w v, c :: (u ++ tail') = w ++ v ∧ n = w.length :=
    ⟨_, _, (List.take_append_drop n _).symm, (List.length_take_of_le (length_of_length? hl)).symm⟩
  have hin := avoids_isLineBreak hr _ _ hl
  rw [hv, List.take_left] at hin
  obtain ⟨z, hz⟩ : w <+: (c :: u) ++ [] :=
    (hb.severs []).append_left (c :: u) w hin ⟨v, hv.symm⟩
  rw [List.append_nil] at hz
  have hsplit : ∀ text, c :: (u ++ text) = w ++ (z ++ text) := by
    intro text
    rw [← List.cons_append, ← hz, List.append_assoc]
  rw [hsplit] at hl h
  have hmatches := (matches_of_length? hl).before
    (Text.wordEndsBefore_congr ht hb.wordEndsBefore z ▸ id : _ → Text.wordEndsBefore (z ++ tail) = true)
  obtain ⟨m, hm, -⟩ := exists_length?_of_matches hmatches
  have hnone := List.findSome?_eq_none_iff.mp h rule (mem_all rule)
  rw [hm] at hnone
  cases hnone

end Rule

/-- What `u` consists of, in front of `tail`, are neither comments nor line breaks. -/
inductive Chunk.Inline (names : NameGrammar) (tail : List Char) : List Char → Prop where
  | nil : Inline names tail []
  | illegal {c : Char} {u : List Char} (h : Rule.first? names (c :: (u ++ tail)) = none)
      (hu : Inline names tail u) : Inline names tail (c :: u)
  | matched {rule : Rule} {w u : List Char}
      (h : Rule.first? names (w ++ (u ++ tail)) = some (rule, w.length)) (hc : rule ≠ .comment)
      (hn : rule ≠ .newLine) (hu : Inline names tail u) : Inline names tail (w ++ u)

/-- A chunk that is neither a comment nor a line break. -/
def Chunk.Plain (chunk : Chunk) : Prop :=
  ∀ w, chunk.shape ≠ .matched .comment w ∧ chunk.shape ≠ .matched .newLine w

/-- Where the cursor stands behind some chunks. -/
def Chunk.behind (place : Cursor) (chunks : List Chunk) : Cursor :=
  chunks.foldl (fun _ chunk => chunk.cursor) place

/-- In front of a comment, a line break or the end of a text all is plain. -/
theorem Chunk.exists_inline (names : NameGrammar) (text : List Char) :
    ∃ u tail, text = u ++ tail ∧ Inline names tail u ∧ (tail = [] ∨ ∃ rule w rest, tail = w ++ rest ∧
      Rule.first? names (w ++ rest) = some (rule, w.length) ∧ (rule = .comment ∨ rule = .newLine)) := by
  induction ({} : Cursor), text using cut_induction names with
  | nil place => exact ⟨[], [], rfl, .nil, .inl rfl⟩
  | illegal place c rest h ih =>
    obtain ⟨u, tail, rfl, hu, htail⟩ := ih
    exact ⟨c :: u, tail, rfl, .illegal h hu, htail⟩
  | matched place rule w rest h ih =>
    by_cases hr : rule = .comment ∨ rule = .newLine
    · exact ⟨[], _, rfl, .nil, .inr ⟨rule, w, rest, rfl, h, hr⟩⟩
    · rw [not_or] at hr
      obtain ⟨u, tail, rfl, hu, htail⟩ := ih
      exact ⟨w ++ u, tail, (List.append_assoc ..).symm, .matched h hr.1 hr.2 hu, htail⟩

namespace Chunk.Inline

theorem inside (h : Inline names tail u) : ∀ c ∈ u, isLineBreak c = false := by
  induction h with
  | nil => exact fun c hc => nomatch hc
  | illegal h hu ih => exact List.forall_mem_cons.mpr ⟨isLineBreak_of_illegal h, ih⟩
  | matched h hc hn hu ih =>
    have hw := Rule.avoids_isLineBreak hn _ _ (Rule.length?_of_first? h)
    rw [List.take_left] at hw
    exact List.forall_mem_append.mpr ⟨hw, ih⟩

/-- What stands behind the end of a line does not matter. -/
theorem of_append (h : Inline names (tail ++ rest) u) (ht : Ended tail) (hp : Parts tail rest) :
    Inline names tail u := by
  have hfirst : ∀ v, Rule.first? names (v ++ (tail ++ rest)) = Rule.first? names (v ++ tail) := by
    intro v
    rw [← List.append_assoc]
    refine Rule.first?_append (ht.append_left v) ?_
    rintro ⟨hl, hr⟩
    rw [List.getLast?_append_of_ne_nil _ ht.ne_nil] at hl
    exact hp ⟨hl, hr⟩
  induction h with
  | nil => exact .nil
  | @illegal c u h hu ih =>
    rw [← List.cons_append, hfirst] at h
    exact .illegal h ih
  | @matched rule w u h hc hn hu ih =>
    rw [← List.append_assoc, hfirst, List.append_assoc] at h
    exact .matched h hc hn ih

/-- The chunks of the line are the same when it ends where `tail` stood. -/
theorem exists_cut (h : Inline names tail u) (ht : Text.wordEndsBefore tail = true) (place : Cursor) :
    ∃ chunks, chunks.flatMap chars = u ∧ (∀ chunk ∈ chunks, chunk.Plain) ∧
      ∀ text, text = tail ∨ Breaks text → cutFrom names [] place 0 (u ++ text) =
        chunks ++ cutFrom names [] (behind place chunks) 0 text := by
  -- chunk by chunk; each is found again in front of `tail`, and in front of a line break
  induction h generalizing place with
  | nil => exact ⟨[], rfl, fun _ h => (List.not_mem_nil h).elim, fun _ _ => rfl⟩
  | @illegal c u h hu ih =>
    obtain ⟨chunks, rfl, hplain, hcut⟩ := ih (place.collapse.advanceOver [c])
    have hc : Plain ⟨.illegal c, place.collapse.advanceOver [c]⟩ :=
      fun w => ⟨nofun, nofun⟩
    refine ⟨_ :: chunks, rfl, List.forall_mem_cons.mpr ⟨hc, hplain⟩, fun text htext => ?_⟩
    have hnone : Rule.first? names (c :: (chunks.flatMap chars ++ text)) = none := by
      rcases htext with rfl | hb
      · exact h
      · exact Rule.first?_eq_none_of_breaks_behind h ht hb
    exact (cutFrom_illegal hnone place).trans (congrArg _ (hcut text htext))
  | @matched rule w u h hc hn hu ih =>
    obtain ⟨chunks, rfl, hplain, hcut⟩ := ih (place.collapse.advanceOver w)
    have hw : Plain ⟨.matched rule w, place.collapse.advanceOver w⟩ :=
      fun v => ⟨fun hs => hc (Shape.matched.inj hs).1, fun hs => hn (Shape.matched.inj hs).1⟩
    refine ⟨_ :: chunks, rfl, List.forall_mem_cons.mpr ⟨hw, hplain⟩, fun text htext => ?_⟩
    have hfirst : Rule.first? names (w ++ (chunks.flatMap chars ++ text)) = some (rule, w.length) := by
      rcases htext with rfl | hb
      · exact h
      · exact Rule.first?_of_breaks_behind h hc hn ht hb
    have hmatched := (cutFrom_matched hfirst place).trans (congrArg _ (hcut text htext))
    rwa [← List.append_assoc] at hmatched

end Chunk.Inline

/-! ### Without comments -/

namespace Chunk

theorem uncommented_cons (chunk : Chunk) (chunks : List Chunk) :
    uncommented (chunk :: chunks) =
      (if chunk.isComment then [] else chunk.chars) ++ uncommented chunks := by
  rw [uncommented, List.filter_cons]
  cases chunk.isComment <;> rfl

theorem uncommented_append (chunks chunks' : List Chunk) :
    uncommented (chunks ++ chunks') = uncommented chunks ++ uncommented chunks' := by
  rw [uncommented, List.filter_append, List.flatMap_append]
  rfl

theorem Plain.isComment (h : chunk.Plain) : chunk.isComment = false := by
  unfold Chunk.isComment
  split
  · rename_i w hs
    exact absurd hs (h w).1
  · rfl

theorem uncommented_of_plain (h : ∀ chunk ∈ chunks, chunk.Plain) :
    uncommented chunks = chunks.flatMap chars := by
  have hall : ∀ chunk ∈ chunks, (!chunk.isComment) = true :=
    fun chunk hc => by rw [(h chunk hc).isComment]; rfl
  rw [uncommented, List.filter_eq_self.mpr hall]

theorem uncommented_down (k n : Nat) (chunks : List Chunk) :
    uncommented (chunks.map (down k n)) = uncommented chunks := by
  induction chunks with
  | nil => rfl
  | cons chunk chunks ih =>
    rw [List.map_cons, uncommented_cons, uncommented_cons, ih]
    rfl

/-- Behind a line break a text is cut as if it started there, but for the places. -/
theorem exists_cut_append (names : NameGrammar) (hu : Ended u) (hp : Parts u rest) :
    ∃ n, cut names (u ++ rest) = cut names u ++ (cut names rest).map (down (lineBreaks u) n) := by
  obtain ⟨before, last, w, hfront, -, hwhole, hstop⟩ := cutFrom_append names hu hp {}
  have hcollapse : last.cursor.collapse =
      ({} : Cursor).collapse.down (lineBreaks u) last.cursor.offset := by
    show (⟨_, ⟨last.cursor.span.stop, last.cursor.span.stop⟩⟩ : Cursor) = ⟨0 + _, ⟨_, _⟩⟩
    rw [hstop, Nat.zero_add]
    rfl
  refine ⟨last.cursor.offset, ?_⟩
  rw [cut, cut, hwhole, hfront, cutFrom_down hcollapse, List.append_assoc]
  rfl

theorem uncommented_cut_append (names : NameGrammar) (hu : Ended u) (hp : Parts u rest) :
    uncommented (cut names (u ++ rest)) =
      uncommented (cut names u) ++ uncommented (cut names rest) := by
  obtain ⟨n, hcut⟩ := exists_cut_append names hu hp
  rw [hcut, uncommented_append, uncommented_down]

end Chunk

/-! ### What is read of a line -/

namespace Reading

variable {chunk : Chunk} {chunks : List Chunk}

theorem kind_of_meaning? {rule : Rule} {kind : TokenKind} {payload : Option Payload}
    (hm : Chunk.meaning? w rule = some (kind, payload)) (hc : rule ≠ .comment) (hn : rule ≠ .newLine) :
    kind ≠ .comment ∧ kind.endsLine = false := by
  cases rule
  case whiteSpace => cases hm
  case comment => exact absurd rfl hc
  case newLine => exact absurd rfl hn
  all_goals
    obtain ⟨rfl, -⟩ := Prod.mk.inj (Option.some.inj hm)
    exact ⟨by decide, rfl⟩

theorem kind_of_plain {t : Token} (h : chunk.Plain) (ht : chunk.item? = some (.ok t)) :
    t.kind ≠ .comment ∧ t.kind.endsLine = false := by
  obtain ⟨shape, cursor⟩ := chunk
  cases shape with
  | illegal c => cases ht
  | matched rule w =>
    obtain ⟨hcomment, hbreak⟩ := h w
    change (Chunk.meaning? w rule).map _ = _ at ht
    obtain ⟨⟨kind, payload⟩, hm, hitem⟩ := Option.map_eq_some_iff.mp ht
    obtain rfl : kind = t.kind := by
      cases payload with
      | none => cases hitem
      | some payload => rw [← Except.ok.inj hitem]
    refine kind_of_meaning? hm ?_ ?_
    · rintro rfl
      exact hcomment rfl
    · rintro rfl
      exact hbreak rfl

/-- What is read of plain chunks does not depend on what stands behind them. -/
theorem exists_readFrom_plain (place : Cursor) (blanks : List Chunk)
    (h : ∀ chunk ∈ chunks, chunk.Plain) : ∃ front blanks',
      (∀ t ∈ tokens front, t.kind ≠ .comment ∧ t.kind.endsLine = false) ∧
      ∀ more, readFrom [] place blanks (chunks ++ more) =
        front ++ readFrom [] (Chunk.behind place chunks) blanks' more := by
  induction chunks generalizing place blanks with
  | nil => exact ⟨[], blanks, fun t ht => (List.not_mem_nil ht).elim, fun more => rfl⟩
  | cons chunk chunks ih =>
    rw [List.forall_mem_cons] at h
    cases hitem : chunk.item? with
    | none =>
      obtain ⟨front, blanks', hfront, hread⟩ := ih chunk.cursor (blanks ++ [chunk]) h.2
      refine ⟨front, blanks', hfront, fun more => ?_⟩
      rw [List.cons_append, readFrom, hitem]
      exact hread more
    | some item =>
      obtain ⟨front, blanks', hfront, hread⟩ := ih chunk.cursor [] h.2
      refine ⟨⟨blanks ++ [chunk], item⟩ :: front, blanks', ?_, fun more => ?_⟩
      · cases item with
        | error d => exact hfront
        | ok t => exact List.forall_mem_cons.mpr ⟨kind_of_plain h.1 hitem, hfront⟩
      · rw [List.cons_append, readFrom, hitem]
        show readFrom [_] _ [] _ = _
        rw [readFrom_eq_append, hread]
        rfl

end Reading

end LineCalc
