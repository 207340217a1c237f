import LineCalc.Proofs.Evaluation.Likeness
import LineCalc.Proofs.Reading.Words

/-!
# Blanks between chunks

Where chunks are moved apart, by blanks between them, the same tokens are read: a blank severs a lexeme
from what is behind it. Only behind a comment there is no room, since blanks there belong to the comment.
And only a name in front of a wide character might become a keyword; but that character is illegal.
-/

namespace LineCalc

/-- What a token is, wherever it stands. -/
def Token.content (t : Token) : TokenKind × Payload × String := (t.kind, t.payload, t.lexeme)

/-- The same is read, at whatever place. -/
abbrev Reading.Same : Except Diagnostic Token → Except Diagnostic Token → Prop :=
  ItemLike (fun _ _ => True) fun t t' => t'.content = t.content

/-- The text of some chunks, with a gap in front of each and one behind the last. -/
def Chunk.spread (gap : Nat → List Char) : List Chunk → List Char
  | [] => gap 0
  | chunk :: rest => gap 0 ++ (chunk.chars ++ spread (fun n => gap (n + 1)) rest)

/-- The text with gaps between its chunks. -/
def Reading.spread (names : NameGrammar) (gap : Nat → List Char) (source : String) : String :=
  String.ofList (Chunk.spread gap (Chunk.cut names source.toList))

/-- Is the chunk a comment? -/
def Chunk.isComment (chunk : Chunk) : Bool :=
  match chunk.shape with
  | .matched .comment _ => true
  | _ => false

/-- All gaps are blanks, and behind a comment there is none. -/
structure Chunk.Spaced (gap : Nat → List Char) (chunks : List Chunk) : Prop where
  blank : ∀ n, ∀ c ∈ gap n, isBlank c = true
  comment : ∀ n chunk, chunks[n]? = some chunk → chunk.isComment = true → gap (n + 1) = []

variable {names : NameGrammar} {place place' : Cursor} {rule : Rule} {gap : Nat → List Char}
variable {source : String} {text rest u w : List Char} {chunk : Chunk} {chunks : List Chunk}
variable {rs rs' : List Reading}

/-! ### Chunks apart -/

theorem Severs.blanks (hu : ∀ c ∈ u, isBlank c = true) (h : Severs isBlank text rest) :
    Severs isBlank text (u ++ rest) := by
  intro w hw hp
  cases u with
  | nil => exact h w hw hp
  | cons b u =>
    cases w with
    | nil => exact List.nil_prefix
    | cons c w =>
      obtain ⟨rfl, -⟩ := List.cons_prefix_cons.mp hp
      have hc := hu c List.mem_cons_self
      rw [hw c List.mem_cons_self] at hc
      cases hc

namespace Chunk

theorem Spaced.tail (h : Spaced gap (chunk :: chunks)) : Spaced (fun n => gap (n + 1)) chunks where
  blank n := h.blank (n + 1)
  comment n := h.comment (n + 1)

theorem Spaced.severs (h : Spaced gap chunks) :
    Severs isBlank (chunks.flatMap chars) (spread gap chunks) := by
  induction chunks generalizing gap with
  | nil =>
    rw [spread, ← List.append_nil (gap 0)]
    exact .blanks (h.blank 0) fun w _ hw => hw
  | cons chunk rest ih =>
    rw [spread, List.flatMap_cons]
    exact .blanks (h.blank 0) ((ih h.tail).append_left chunk.chars)

theorem Spaced.severs_cutFrom (h : Spaced gap (cutFrom names [] place 0 text)) :
    Severs isBlank text (spread gap (cutFrom names [] place 0 text)) := by
  have hs := h.severs
  rwa [flatMap_chars_cutFrom, List.drop_zero] at hs

theorem head?_spread (hgap : gap 0 = []) (place : Cursor) (text : List Char) :
    (spread gap (cutFrom names [] place 0 text)).head? = text.head? := by
  cases text with
  | nil =>
    show (gap 0).head? = none
    rw [hgap]
    rfl
  | cons c text =>
    obtain ⟨n, hn⟩ := chars_first names place c text
    rw [cutFrom_cons, spread, hgap, hn]
    rfl

end Chunk

namespace Reading

/-- What a chunk is read as does not hang on its place. -/
theorem content_item? (place place' : Cursor) (shape : Shape) :
    List.Forall₂ Same (Chunk.item? ⟨shape, place⟩).toList (Chunk.item? ⟨shape, place'⟩).toList := by
  cases shape with
  | illegal c => exact .cons (.error ⟨rfl, trivial⟩) .nil
  | matched rule w =>
    cases hm : Chunk.meaning? w rule with
    | none => simp [Chunk.item?, hm]
    | some m =>
      obtain ⟨kind, payload⟩ := m
      simp only [Chunk.item?, hm]
      cases payload with
      | none => exact .cons (.error ⟨rfl, trivial⟩) .nil
      | some payload => exact .cons (.ok rfl) .nil

/-- A name in front of a wide character is spelled like a keyword only where something is illegal. -/
theorem exists_error_of_keyword {f : Func} (hw : w = f.keyword.toList)
    (h : Rule.first? names (w ++ rest) = some (.ident, w.length)) (place : Cursor) :
    ∃ d, .error d ∈ items names place rest := by
  have hend := Rule.wordEndsBefore_of_ident hw h
  obtain ⟨c, rest, rfl, hwide, hname⟩ := exists_wide hend fun c hc =>
    Rule.continuesName_of_length? (.inr rfl) (Rule.length?_of_first? h) hc
  rw [items_illegal (Rule.first?_of_wide hwide hname rest)]
  exact ⟨_, List.mem_cons_self⟩

/-- A lexeme is found again in front of what is spread. -/
theorem first?_of_spaced (h : Rule.first? names (w ++ rest) = some (rule, w.length))
    (hr : rule ≠ .whiteSpace) (hclean : ∀ d, .error d ∉ items names place rest)
    (hs : Chunk.Spaced gap (Chunk.cutFrom names [] place 0 rest))
    (hgap : rule = .comment → gap 0 = []) :
    Rule.first? names (w ++ Chunk.spread gap (Chunk.cutFrom names [] place 0 rest)) =
      some (rule, w.length) := by
  refine Rule.first?_of_blanks h hr hs.severs_cutFrom ?_ ?_
  · rintro rfl c hc
    rw [Chunk.head?_spread (hgap rfl)] at hc
    exact Rule.isLineBreak_of_comment h hc
  · rintro rfl f hw
    obtain ⟨d, hd⟩ := exists_error_of_keyword hw h place
    exact absurd hd (hclean d)

/-- With gaps between the chunks, and behind some blanks more, the same is read. -/
theorem items_spread (names : NameGrammar) (place place' : Cursor) (text : List Char)
    (hclean : ∀ d, .error d ∉ items names place text)
    (hs : Chunk.Spaced gap (Chunk.cutFrom names [] place 0 text)) (hu : ∀ c ∈ u, isBlank c = true) :
    List.Forall₂ Same (items names place text)
      (items names place' (u ++ Chunk.spread gap (Chunk.cutFrom names [] place 0 text))) := by
  induction place, text using Chunk.cut_induction names generalizing gap u place' with
  | nil place =>
    have hend : ∀ c, ([] : List Char).head? = some c → isBlank c = false := fun c hc => by cases hc
    obtain ⟨place'', -, hitems⟩ := exists_items_eq names
      (List.forall_mem_append.mpr ⟨hu, hs.blank 0⟩) hend place'
    rw [List.append_nil] at hitems
    show List.Forall₂ _ _ (items names place' (u ++ gap 0))
    rw [hitems]
    exact .cons (.ok rfl) .nil
  | illegal place c rest h ih =>
    rw [items_illegal h] at hclean
    exact absurd List.mem_cons_self (hclean _)
  | matched place rule w rest h ih =>
    have hclean' : ∀ d, .error d ∉ items names (place.collapse.advanceOver w) rest := by
      intro d hd
      refine hclean d ?_
      rw [items_matched h]
      exact List.mem_append_right _ hd
    have hu' := List.forall_mem_append.mpr ⟨hu, hs.blank 0⟩
    rw [Chunk.cutFrom_matched h] at hs ⊢
    rw [items_matched h, Chunk.spread, ← List.append_assoc]
    show List.Forall₂ _ _ (items names place' ((u ++ gap 0) ++ (w ++ Chunk.spread _ _)))
    by_cases hr : rule = .whiteSpace
    · -- the chunk makes the gap in front of it wider
      subst hr
      rw [← List.append_assoc]
      exact ih _ hclean' hs.tail (List.forall_mem_append.mpr ⟨hu', isBlank_of_whiteSpace h⟩)
    · -- what the gap is filled with is passed over, and the lexeme is found again
      obtain ⟨place'', -, hitems⟩ := exists_items_eq names hu'
        (isBlank_of_ne_whiteSpace h hr _) place'
      have hagain := first?_of_spaced h hr hclean' hs.tail fun hc =>
        hs.comment 0 _ rfl (by rw [hc]; rfl)
      rw [hitems, items_matched hagain]
      exact List.rel_append (content_item? ..) (ih (u := []) _ hclean' hs.tail (by simp))

end Reading

/-- How texts correspond of which the same is read, at whatever places. -/
def Likeness.anywhere : Likeness where
  place _ _ := True
  token t t' := t'.content = t.content
  reading r r' := Reading.Same r.item r'.item
  readTally _ _ := True
  evalTally a a' := a' = a
  stores l l' := l' = l
  merge _ _ := trivial
  kind ht := congrArg Prod.fst ht
  payload ht := congrArg (·.2.1) ht
  found {t t'} ht := by
    have hk : t'.kind = t.kind := congrArg Prod.fst ht
    have hl : t'.lexeme = t.lexeme := congrArg (·.2.2) ht
    rw [Found.ofToken, Found.ofToken, hk, hl]
  span _ := trivial
  item hr := hr
  readTally_add _ _ := trivial
  evalTally_add x ha := by rw [ha]
  stores_append x hl := by rw [hl]

namespace Reading

/-- With gaps between the chunks of a text in which everything is right, the same is read. -/
theorem forall₂_spread (hclean : diagnostics (ofText names source) = [])
    (hs : Chunk.Spaced gap (Chunk.cut names source.toList)) :
    List.Forall₂ (fun r r' => Same r.item r'.item) (ofText names source)
      (ofText names (spread names gap source)) := by
  have hnone : ∀ d, .error d ∉ items names {} source.toList := by
    intro d hd
    obtain ⟨r, hr, hi⟩ := List.mem_map.mp hd
    have hmem : d ∈ diagnostics (ofText names source) := mem_diagnostics.mpr ⟨r, hr, hi⟩
    rw [hclean] at hmem
    cases hmem
  have hitems := items_spread (u := []) names {} {} source.toList hnone hs (by simp)
  have hcut : Chunk.cut names (spread names gap source).toList =
      Chunk.cut names (Chunk.spread gap (Chunk.cut names source.toList)) := by
    rw [spread, String.toList_ofList]
  rw [ofText, ofText, hcut]
  exact List.forall₂_map_right_iff.mp (List.forall₂_map_left_iff.mp hitems)

/-- What is read alike is made of the same tokens, and has the same problems. -/
theorem contents_eq (h : List.Forall₂ (fun r r' => Same r.item r'.item) rs rs') :
    (tokens rs').map Token.content = (tokens rs).map Token.content ∧
      (diagnostics rs').map (·.problem) = (diagnostics rs).map (·.problem) := by
  induction h with
  | nil => exact ⟨rfl, rfl⟩
  | @cons r r' rs rs' hr hrs ih =>
    obtain ⟨chunks, item⟩ := r
    obtain ⟨chunks', item'⟩ := r'
    cases hr with
    | ok ht => exact ⟨congrArg₂ List.cons ht ih.1, ih.2⟩
    | error hd => exact ⟨ih.1, congrArg₂ List.cons hd.problem ih.2⟩

end Reading

end LineCalc
