import LineCalc.Proofs.Reading.Faded

/-!
# Spaces in the place of illegal characters

Where a character is illegal a space may stand in its place: the same is read, but for the diagnostic
of the character. Lexemes stay what they are, and what comes in between are blanks, fewer in number
but as wide.
-/

namespace LineCalc

/-- Is this the diagnostic of an illegal character? -/
def Diagnostic.isIllegal (d : Diagnostic) : Bool :=
  match d.problem with
  | .illegalChar _ => true
  | _ => false

/-- Is what was read the diagnostic of an illegal character? -/
def Reading.isIllegal : Except Diagnostic Token → Bool
  | .ok _ => false
  | .error d => d.isIllegal

/-- The text of a chunk, with a space in the place of an illegal character. -/
def Chunk.blanked (chunk : Chunk) : List Char :=
  match chunk.shape with
  | .matched _ lexeme => lexeme
  | .illegal _ => [' ']

/-- The text with a space in the place of each illegal character. -/
def Reading.blanked (names : NameGrammar) (source : String) : String :=
  String.ofList ((Chunk.cut names source.toList).flatMap Chunk.blanked)

variable {names : NameGrammar} {place place' : Cursor} {rule : Rule} {c : Char}
variable {text rest u w : List Char}

/-! ### Places -/

namespace Cursor

/-- What a cursor covers depends on the place where it starts, not on the bytes in front. -/
theorem span_collapse_advanceOver (h : place.span.stop = place'.span.stop) (w : List Char) :
    (place.collapse.advanceOver w).span = (place'.collapse.advanceOver w).span := by
  have hcongr : ∀ {a b : Cursor}, a.span = b.span → (a.advanceOver w).span = (b.advanceOver w).span := by
    induction w with
    | nil => exact fun h => h
    | cons c w ih =>
      intro a b h
      refine ih ?_
      show Span.mk a.span.start (positionAfter a.span.stop c _) =
        Span.mk b.span.start (positionAfter b.span.stop c _)
      rw [h]
  refine hcongr ?_
  show Span.mk place.span.stop place.span.stop = Span.mk place'.span.stop place'.span.stop
  rw [h]

/-- Over characters that end no line a cursor keeps its distance from a place on the line. -/
theorem stop_collapse_advanceOver {p : Position} {n : Nat}
    (hp : place.span.stop = ⟨p.line, p.column + n⟩) (hw : ∀ c ∈ w, isLineBreak c = false) :
    (place.collapse.advanceOver w).span.stop = ⟨p.line, p.column + (n + w.length)⟩ := by
  rw [stop_advanceOver_inside _ hw]
  show Position.mk place.span.stop.line (place.span.stop.column + w.length) = _
  rw [hp, Nat.add_assoc]

end Cursor

/-! ### Chunk by chunk -/

namespace Chunk

theorem cutFrom_illegal (h : Rule.first? names (c :: rest) = none) (place : Cursor) :
    cutFrom names [] place 0 (c :: rest) = ⟨.illegal c, place.collapse.advanceOver [c]⟩ ::
      cutFrom names [] (place.collapse.advanceOver [c]) 0 rest := by
  have hs : Shape.first names c rest = .illegal c := by rw [Shape.first, h]
  rw [cutFrom_cons, first, hs]
  rfl

theorem cutFrom_matched (h : Rule.first? names (w ++ rest) = some (rule, w.length))
    (place : Cursor) :
    cutFrom names [] place 0 (w ++ rest) = ⟨.matched rule w, place.collapse.advanceOver w⟩ ::
      cutFrom names [] (place.collapse.advanceOver w) 0 rest := by
  cases w with
  | nil => exact absurd (Rule.pos_of_first? h) (Nat.lt_irrefl 0)
  | cons c w =>
    rw [List.cons_append] at h
    have hs : Shape.first names c (w ++ rest) = .matched rule (c :: w) := by
      rw [Shape.first, h, ← List.cons_append]
      exact congrArg _ List.take_left
    rw [List.cons_append, cutFrom_cons, first, hs]
    show _ :: cutFrom names [] _ 0 ((c :: (w ++ rest)).drop (c :: w).length) = _
    rw [← List.cons_append, List.drop_left]
    rfl

/-- Induction on a text, chunk by chunk. -/
theorem cut_induction (names : NameGrammar) {motive : Cursor → List Char → Prop}
    (nil : ∀ place, motive place [])
    (illegal : ∀ place c rest, Rule.first? names (c :: rest) = none →
      motive (place.collapse.advanceOver [c]) rest → motive place (c :: rest))
    (matched : ∀ place rule w rest, Rule.first? names (w ++ rest) = some (rule, w.length) →
      motive (place.collapse.advanceOver w) rest → motive place (w ++ rest))
    (place : Cursor) (text : List Char) : motive place text := by
  induction hl : text.length using Nat.strongRecOn generalizing place text with
  | ind n ih =>
    cases text with
    | nil => exact nil place
    | cons c rest =>
      cases hf : Rule.first? names (c :: rest) with
      | none =>
        refine illegal place c rest hf (ih rest.length ?_ _ rest rfl)
        rw [← hl]
        exact Nat.lt_succ_self _
      | some found =>
        obtain ⟨rule, n⟩ := found
        have hle := Rule.length_of_length? (Rule.length?_of_first? hf)
        have hpos := Rule.pos_of_first? hf
        rw [← List.take_append_drop n (c :: rest)]
        refine matched place rule _ _ ?_ (ih _ ?_ _ _ rfl)
        · rw [List.take_append_drop, List.length_take_of_le hle, hf]
        · rw [List.length_drop]
          omega

/-- The text of the chunks from the cursor on, with spaces in the place of illegal characters. -/
def blankedFrom (names : NameGrammar) (place : Cursor) (text : List Char) : List Char :=
  (cutFrom names [] place 0 text).flatMap blanked

theorem blankedFrom_illegal (h : Rule.first? names (c :: rest) = none) (place : Cursor) :
    blankedFrom names place (c :: rest) =
      ' ' :: blankedFrom names (place.collapse.advanceOver [c]) rest := by
  rw [blankedFrom, cutFrom_illegal h]
  rfl

theorem blankedFrom_matched (h : Rule.first? names (w ++ rest) = some (rule, w.length))
    (place : Cursor) : blankedFrom names place (w ++ rest) =
      w ++ blankedFrom names (place.collapse.advanceOver w) rest := by
  rw [blankedFrom, cutFrom_matched h]
  rfl

theorem isLineBreak_of_illegal (h : Rule.first? names (c :: rest) = none) :
    isLineBreak c = false := by
  have hs : Shape.first names c rest = .illegal c := by rw [Shape.first, h]
  rcases Shape.first_cases names c rest with hin | ⟨w, v, hw, -, -⟩
  · refine hin c ?_
    rw [hs]
    exact List.mem_cons_self
  · rw [hs] at hw
    cases hw

theorem faded_blankedFrom (names : NameGrammar) (place : Cursor) (text : List Char) :
    Faded text (blankedFrom names place text) := by
  induction place, text using cut_induction names with
  | nil place => exact .nil
  | illegal place c rest h ih =>
    rw [blankedFrom_illegal h]
    exact .blank (isLineBreak_of_illegal h) ih
  | matched place rule w rest h ih =>
    rw [blankedFrom_matched h]
    exact ih.append_left w

end Chunk

/-! ### What is read -/

namespace Reading

/-- What is read from a text that starts at the cursor. -/
def items (names : NameGrammar) (place : Cursor) (text : List Char) :
    List (Except Diagnostic Token) :=
  (readFrom [] place [] (Chunk.cutFrom names [] place 0 text)).map (·.item)

theorem items_readFrom (stop : Cursor) (blanks blanks' chunks : List Chunk) :
    (readFrom [] stop blanks chunks).map (·.item) =
      (readFrom [] stop blanks' chunks).map (·.item) := by
  induction chunks generalizing stop blanks blanks' with
  | nil => rfl
  | cons chunk rest ih =>
    rw [readFrom, readFrom]
    cases chunk.item? with
    | none => exact ih ..
    | some item =>
      show (readFrom [_] _ [] _).map _ = (readFrom [_] _ [] _).map _
      rw [readFrom_eq_append, readFrom_eq_append [_]]
      simp

theorem items_readFrom_cons (stop : Cursor) (blanks : List Chunk) (chunk : Chunk)
    (rest : List Chunk) : (readFrom [] stop blanks (chunk :: rest)).map (·.item) =
      chunk.item?.toList ++ (readFrom [] chunk.cursor [] rest).map (·.item) := by
  rw [readFrom]
  cases chunk.item? with
  | none => exact items_readFrom ..
  | some item =>
    show (readFrom [_] _ [] _).map _ = _
    rw [readFrom_eq_append]
    rfl

theorem items_nil (names : NameGrammar) (place : Cursor) :
    items names place [] = [.ok (endToken place)] := rfl

theorem items_illegal (h : Rule.first? names (c :: rest) = none) (place : Cursor) :
    items names place (c :: rest) =
      .error ⟨.illegalChar c, (place.collapse.advanceOver [c]).span⟩ ::
        items names (place.collapse.advanceOver [c]) rest := by
  rw [items, Chunk.cutFrom_illegal h, items_readFrom_cons]
  rfl

theorem items_matched (h : Rule.first? names (w ++ rest) = some (rule, w.length))
    (place : Cursor) : items names place (w ++ rest) =
      (Chunk.item? ⟨.matched rule w, place.collapse.advanceOver w⟩).toList ++
        items names (place.collapse.advanceOver w) rest := by
  rw [items, Chunk.cutFrom_matched h, items_readFrom_cons]
  rfl

/-! ### Blanks -/

/-- A row of blanks is one lexeme. -/
theorem first?_of_isBlank (hc : isBlank c = true) (rest : List Char) :
    Rule.first? names (c :: rest) = some (.whiteSpace, runLength isBlank (c :: rest)) := by
  have hl : Rule.whiteSpace.length? names (c :: rest) = some (runLength isBlank (c :: rest)) := by
    rw [Rule.length?, runLength_cons, if_pos hc, positive?, if_neg (by omega)]
  rw [Rule.first?, Rule.all, List.findSome?_cons, hl]
  rfl

theorem isLineBreak_of_isBlank (hu : ∀ c ∈ u, isBlank c = true) : ∀ c ∈ u, isLineBreak c = false :=
  fun c hc => isLineBreak_eq_false_of (p := isBlank) rfl rfl c (hu c hc)

theorem isBlank_of_whiteSpace (h : Rule.first? names (w ++ rest) = some (.whiteSpace, w.length)) :
    ∀ c ∈ w, isBlank c = true := by
  have hl : positive? (runLength isBlank (w ++ rest)) = some w.length := Rule.length?_of_first? h
  exact (Pattern.length_le_runLength_iff isBlank w rest).mp (Nat.le_of_eq (le_of_positive? hl))

theorem isBlank_of_ne_whiteSpace (h : Rule.first? names (w ++ rest) = some (rule, w.length))
    (hr : rule ≠ .whiteSpace) (rest' : List Char) :
    ∀ c, (w ++ rest').head? = some c → isBlank c = false := by
  cases w with
  | nil => exact absurd (Rule.pos_of_first? h) (Nat.lt_irrefl 0)
  | cons d w =>
    intro c hc
    obtain rfl := Option.some.inj hc
    refine Bool.eq_false_iff.mpr fun hd => hr ?_
    rw [List.cons_append, first?_of_isBlank hd] at h
    exact (congrArg Prod.fst (Option.some.inj h)).symm

/-- Blanks are passed over. -/
theorem exists_items_eq (names : NameGrammar) (hu : ∀ c ∈ u, isBlank c = true)
    (ht : ∀ c, text.head? = some c → isBlank c = false) (place : Cursor) :
    ∃ place' : Cursor,
      place'.span.stop = ⟨place.span.stop.line, place.span.stop.column + u.length⟩ ∧
        items names place (u ++ text) = items names place' text := by
  cases u with
  | nil => exact ⟨place, rfl, rfl⟩
  | cons c u =>
    have hf : Rule.first? names (c :: u ++ text) = some (.whiteSpace, (c :: u).length) := by
      rw [← runLength_append hu ht]
      exact first?_of_isBlank (hu c List.mem_cons_self) (u ++ text)
    exact ⟨place.collapse.advanceOver (c :: u),
      Cursor.stop_advanceOver_inside _ (isLineBreak_of_isBlank hu), items_matched hf place⟩

/-! ### Illegal characters -/

theorem item?_congr {shape : Shape} (h : place.span = place'.span) :
    Chunk.item? ⟨shape, place⟩ = Chunk.item? ⟨shape, place'⟩ := by
  simp only [Chunk.item?, Chunk.span, h]

theorem endToken_congr (h : place.span.stop = place'.span.stop) :
    endToken place = endToken place' := by
  simp only [endToken, Cursor.span_collapse, Span.collapse, h]

theorem filter_item?_matched (rule : Rule) (w : List Char) (place : Cursor) :
    (Chunk.item? ⟨.matched rule w, place⟩).toList.filter (!isIllegal ·) =
      (Chunk.item? ⟨.matched rule w, place⟩).toList := by
  rw [List.filter_eq_self]
  intro item hi
  obtain ⟨⟨kind, payload⟩, -, rfl⟩ := Option.map_eq_some_iff.mp (Option.mem_toList.mp hi)
  cases payload <;> rfl

/-- With spaces in the place of illegal characters, and behind some blanks more, the same is read, but
for their diagnostics. -/
theorem items_blankedFrom (names : NameGrammar) (place : Cursor) (text : List Char)
    (hk : ∀ t, .ok t ∈ items names place text → t.kind = .ident →
      t.lexeme ∉ ["sin", "cos", "exp", "log"])
    (hu : ∀ c ∈ u, isBlank c = true)
    (hp : place.span.stop = ⟨place'.span.stop.line, place'.span.stop.column + u.length⟩) :
    items names place' (u ++ Chunk.blankedFrom names place text) =
      (items names place text).filter (!isIllegal ·) := by
  -- by chunks: `u` collects the blanks that now stand in front, of spaces that were illegal before
  -- and of the text
  induction place, text using Chunk.cut_induction names generalizing u place' with
  | nil place =>
    have hend : ∀ c, ([] : List Char).head? = some c → isBlank c = false := fun c hc => by cases hc
    obtain ⟨place'', hp', hitems⟩ := exists_items_eq names hu hend place'
    show items names place' (u ++ []) = _
    rw [hitems, items_nil, items_nil, endToken_congr (hp'.trans hp.symm)]
    rfl
  | illegal place c rest h ih =>
    rw [items_illegal h] at hk ⊢
    have hinside : ∀ b ∈ [c], isLineBreak b = false := by
      simpa using Chunk.isLineBreak_of_illegal h
    rw [Chunk.blankedFrom_illegal h, List.filter_cons_of_neg (by simp [isIllegal, Diagnostic.isIllegal]),
      List.append_cons]
    refine ih (fun t ht => hk t (List.mem_cons_of_mem _ ht)) ?_ ?_
    · rw [List.forall_mem_append]
      exact ⟨hu, by simp [isBlank]⟩
    · rw [List.length_append]
      exact Cursor.stop_collapse_advanceOver hp hinside
  | matched place rule w rest h ih =>
    rw [items_matched h] at hk ⊢
    rw [Chunk.blankedFrom_matched h]
    have hk' := fun t ht => hk t (List.mem_append_right _ ht)
    by_cases hr : rule = .whiteSpace
    · subst hr
      have hw := isBlank_of_whiteSpace h
      rw [← List.append_assoc]
      refine ih hk' (List.forall_mem_append.mpr ⟨hu, hw⟩) ?_
      rw [List.length_append]
      exact Cursor.stop_collapse_advanceOver hp (isLineBreak_of_isBlank hw)
    · obtain ⟨place'', hp', hitems⟩ := exists_items_eq names hu
        (isBlank_of_ne_whiteSpace h hr _) place'
      have hspan := Cursor.span_collapse_advanceOver (hp'.trans hp.symm) w
      have hkeyword : rule = .ident → ∀ f : Func, w ≠ f.keyword.toList := by
        rintro rfl f rfl
        refine hk _ (List.mem_append_left _ List.mem_cons_self) rfl ?_
        show String.ofList f.keyword.toList ∈ _
        rw [String.ofList_toList]
        cases f <;> decide
      -- what the lexeme ends at is still there, or a blank is, so the rule finds it again
      have hfaded := Chunk.faded_blankedFrom names (place.collapse.advanceOver w) rest
      rw [hitems, items_matched (Rule.first?_of_faded h hr hkeyword hfaded), List.filter_append,
        filter_item?_matched, item?_congr hspan]
      congr 1
      refine ih (u := []) hk' (by simp) ?_
      rw [hspan]
      rfl

/-- So the readings of the text are the same, but for the diagnostics of illegal characters. -/
theorem items_blanked (names : NameGrammar) (source : String)
    (hk : ∀ t ∈ tokens (ofText names source), t.kind = .ident →
      t.lexeme ∉ ["sin", "cos", "exp", "log"]) :
    (ofText names (blanked names source)).map (·.item) =
      ((ofText names source).map (·.item)).filter (!isIllegal ·) := by
  have hk' : ∀ t, .ok t ∈ items names {} source.toList → t.kind = .ident →
      t.lexeme ∉ ["sin", "cos", "exp", "log"] := by
    intro t ht
    obtain ⟨r, hr, hi⟩ := List.mem_map.mp ht
    exact hk t (mem_tokens.mpr ⟨r, hr, hi⟩)
  have hcut : Chunk.cut names (blanked names source).toList =
      Chunk.cut names (Chunk.blankedFrom names {} source.toList) := by
    rw [blanked, String.toList_ofList]
    rfl
  have hnone : ∀ c ∈ ([] : List Char), isBlank c = true := by simp
  rw [ofText, hcut]
  exact items_blankedFrom names {} source.toList hk' hnone rfl

end Reading

end LineCalc
