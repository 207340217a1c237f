import LineCalc.Proofs.Reading.OnDemand

/-!
# Lines, counted by their tokens

Every line break of a text is a token, and no other token holds one. So the line on which a token
stands can be told from the tokens in front of it, and the number of lines from all the tokens.
-/

namespace LineCalc

/-- How many of some tokens are line breaks. -/
def newLines (toks : List Token) : Nat := toks.countP (·.kind = .newLine)

@[simp] theorem newLines_nil : newLines [] = 0 := rfl

@[simp] theorem newLines_append (toks toks' : List Token) :
    newLines (toks ++ toks') = newLines toks + newLines toks' := List.countP_append

theorem newLines_singleton (t : Token) : newLines [t] = if t.kind = .newLine then 1 else 0 := by
  simp [newLines, List.countP_singleton]

namespace Reading

variable {names : NameGrammar} {source : String} {done more : List Reading} {r : Reading}
variable {before post : List Token} {t : Token}

/-- A line ends with a reading when its token is a line break. -/
theorem lines_itemTally (r : Reading) : (itemTally r.item).lines = newLines (tokens [r]) := by
  obtain ⟨chunks, item⟩ := r
  cases item with
  | ok t =>
    rw [tokens_ok, tokens_nil, newLines_singleton]
    rfl
  | error d => rfl

/-- Each reading stands where the text says. -/
theorem exists_placed (h : ofText names source = done ++ r :: more) :
    ∃ blanks own, r.Placed (text done) blanks own := by
  have hget : (ofText names source)[done.length]? = some r := by
    rw [h]
    simp
  have hp := Reader.placed_of_getElem? hget
  rwa [h, List.take_left] at hp

/-- As many lines end in a part of the text as there are line breaks among its tokens. -/
theorem lineBreaks_text (h : ofText names source = done ++ more) :
    lineBreaks (text done) = newLines (tokens done) := by
  induction done using List.reverseRecOn generalizing more with
  | nil => rfl
  | append_singleton done r ih =>
    have h' : ofText names source = done ++ r :: more := by simpa using h
    obtain ⟨blanks, own, hp⟩ := exists_placed h'
    rw [text_append, hp.lines, ih h', tokens_append, newLines_append, lines_itemTally]

/-- A token stands behind as many line breaks as there are in front of it. -/
theorem line_of_ofText (h : ofText names source = done ++ r :: more) (hr : r.item = .ok t) :
    t.span.start.line = 1 + newLines (tokens done) := by
  obtain ⟨blanks, own, hp⟩ := exists_placed h
  have hspan : r.span = t.span := by rw [span, hr]
  rw [← hspan, hp.span]
  show 1 + lineBreaks _ = _
  rw [hp.level, lineBreaks_text h]

theorem exists_of_tokens_eq {rs : List Reading} (h : tokens rs = before ++ t :: post) :
    ∃ done r more, rs = done ++ r :: more ∧ r.item = .ok t ∧ tokens done = before ∧
      tokens more = post := by
  obtain ⟨done, rest, rfl, hd, hrest⟩ := List.filterMap_eq_append_iff.mp h
  obtain ⟨silent, r, more, rfl, hs, hr, hm⟩ := List.filterMap_eq_cons_iff.mp hrest
  refine ⟨done ++ silent, r, more, by simp, ?_, ?_, hm⟩
  · unfold token? at hr
    cases hi : r.item with
    | ok t' =>
      rw [hi] at hr
      rw [Option.some.inj hr]
    | error d =>
      rw [hi] at hr
      cases hr
  · rw [tokens_append, show tokens done = before from hd,
      show tokens silent = [] from List.filterMap_eq_nil_iff.mpr hs, List.append_nil]

theorem line_of_tokens_eq {front : List Reading} (h : ofText names source = front ++ more)
    (ht : tokens front = before ++ t :: post) : t.span.start.line = 1 + newLines before := by
  obtain ⟨done, r, rest, rfl, hr, rfl, -⟩ := exists_of_tokens_eq ht
  rw [List.append_assoc] at h
  exact line_of_ofText h hr

end Reading

end LineCalc
