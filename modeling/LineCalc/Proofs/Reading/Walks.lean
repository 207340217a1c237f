import LineCalc.Proofs.Reading.Displaced
import LineCalc.Proofs.Reading.LineFeeds
import LineCalc.Proofs.Reading.Places

/-!
# Walks over a text

A cursor that walks over a text looks at the character behind each one, but not past the end of the
text. So two walks, the second from where the first ends, come to the place of the walk over both texts
at once, unless a carriage return at the end of the one is torn from a line feed at the start of the
other: then the carriage return ends a line of its own. From the start of a text a walk comes to the
place behind it.
-/

namespace LineCalc

variable {s t text : List Char}

theorem byteLength_toList (s : String) : byteLength s.toList = s.utf8ByteSize := by
  have h := congrArg (·.byteIdx) (Chunk.rawEndPos_ofList s.toList)
  rw [String.ofList_toList] at h
  exact h.symm

namespace Cursor

/-! ### Two walks -/

/-- The cursor with its end a line further down. -/
def lower (cursor : Cursor) : Cursor :=
  { cursor with span := { cursor.span with stop := cursor.span.stop.down 1 } }

theorem advanceOver_lower (cursor : Cursor) (text : List Char) :
    cursor.lower.advanceOver text = (cursor.advanceOver text).lower := by
  induction text generalizing cursor with
  | nil => rfl
  | cons c text ih =>
    have hstep : cursor.lower.advance c text.head? = (cursor.advance c text.head?).lower := by
      show Cursor.mk _ ⟨_, positionAfter (cursor.span.stop.down 1) c _⟩ = Cursor.mk _ ⟨_, _⟩
      rw [positionAfter_down]
      rfl
    rw [advanceOver_cons, advanceOver_cons, hstep, ih]

theorem advanceOver_append_of_parts (h : Parts s t) (cursor : Cursor) :
    (cursor.advanceOver s).advanceOver t = cursor.advanceOver (s ++ t) := by
  induction s generalizing cursor with
  | nil => rfl
  | cons c s ih =>
    cases s with
    | nil =>
      show (cursor.advance c none).advanceOver t = (cursor.advance c t.head?).advanceOver t
      unfold advance positionAfter
      rw [endsLine_of_parts h]
    | cons d s => exact ih h.of_cons (cursor.advance c (some d))

/-- A carriage return that is torn from its line feed ends a line of its own. -/
theorem advanceOver_append_of_not_parts (h : ¬Parts s t) (cursor : Cursor) :
    (cursor.advanceOver s).advanceOver t = (cursor.advanceOver (s ++ t)).lower := by
  obtain ⟨hs, ht⟩ := not_not.mp h
  obtain ⟨u, rfl⟩ := List.getLast?_eq_some_iff.mp hs
  obtain ⟨v, rfl⟩ := List.head?_eq_some_iff.mp ht
  have hr : ∀ w, Parts u ('\r' :: w) := fun w hw => nomatch hw.2
  rw [List.append_assoc, ← advanceOver_append_of_parts (hr []), List.singleton_append,
    ← advanceOver_append_of_parts (hr ('\n' :: v))]
  -- from here the walks differ in the step over the carriage return
  generalize cursor.advanceOver u = place
  have hstep : (place.advance '\r' none).advance '\n' v.head? =
      ((place.advance '\r' (some '\n')).advance '\n' v.head?).lower := rfl
  show ((place.advance '\r' none).advance '\n' v.head?).advanceOver v = _
  rw [hstep, advanceOver_lower]
  rfl

/-- Where the text is cut does not matter to the column. -/
theorem column_advanceOver_append (cursor : Cursor) (s t : List Char) :
    (cursor.advanceOver (s ++ t)).span.stop.column =
      ((cursor.advanceOver s).advanceOver t).span.stop.column := by
  by_cases h : Parts s t
  · rw [advanceOver_append_of_parts h]
  · rw [advanceOver_append_of_not_parts h]
    rfl

/-! ### The place behind a text -/

theorem column_advanceOver_eq (cursor : Cursor) (h : cursor.span.stop.column = 1)
    (text : List Char) :
    (cursor.advanceOver text).span.stop.column = 1 + (lastLine text).length := by
  induction text using List.reverseRecOn with
  | nil => exact h
  | append_singleton text c ih =>
    rw [column_advanceOver_append]
    show (positionAfter _ c none).column = _
    unfold positionAfter
    rw [endsLine_none]
    cases hc : isLineBreak c with
    | true =>
      rw [lastLine_of_ended ⟨text, c, rfl, hc⟩]
      rfl
    | false =>
      rw [lastLine_append fun b hb => List.mem_singleton.mp hb ▸ hc, List.length_append, ← Nat.add_assoc,
        ← ih]
      rfl

theorem advanceOver_start (text : List Char) :
    ({} : Cursor).advanceOver text =
      ⟨byteLength text, ⟨⟨1, 1⟩, ⟨1 + lineBreaks text, 1 + (lastLine text).length⟩⟩⟩ := by
  have hoffset := offset_advanceOver {} text
  have hstart := start_advanceOver {} text
  have hline := line_advanceOver_eq {} text
  have hcolumn := column_advanceOver_eq {} rfl text
  rw [Nat.zero_add] at hoffset
  rw [← hoffset, ← hline, ← hcolumn]
  exact congrArg (fun start => Cursor.mk _ ⟨start, _⟩) hstart

end Cursor

/-- Each line feed and each carriage return is a line break, but the two together are one. -/
theorem lineBreaks_add_pairedBreaks (text : List Char) :
    lineBreaks text + pairedBreaks text = text.count '\n' + text.count '\r' := by
  fun_induction pairedBreaks text with
  | case1 rest ih =>
    have hbreaks : lineBreaks ('\r' :: '\n' :: rest) = 1 + lineBreaks rest :=
      lineBreaks_lineBreak (.inl rfl)
    rw [hbreaks, List.count_cons_of_ne (by decide), List.count_cons_self, List.count_cons_self,
      List.count_cons_of_ne (by decide)]
    omega
  | case2 c rest hpair ih =>
    -- not torn from a line feed, so every line break ends a line here
    have hends : Cursor.endsLine c rest.head? = isLineBreak c := by
      apply Cursor.endsLine_eq_isLineBreak
      rintro ⟨hc, hn⟩
      obtain ⟨tail, rfl⟩ := List.head?_eq_some_iff.mp hn
      exact hpair tail hc rfl
    have hbreak : (if isLineBreak c then 1 else 0) =
        (if c == '\n' then 1 else 0) + if c == '\r' then 1 else 0 := by
      unfold isLineBreak
      by_cases hn : c = '\n'
      · rw [hn]
        rfl
      · simp [hn]
    rw [lineBreaks, hends, hbreak, List.count_cons, List.count_cons]
    omega
  | case3 => rfl

/-- Walks compose, but for a line more where a carriage return is torn from its line feed. From the
start of a text a walk ends behind it: after its bytes, after the lines that end in it, and after the
characters behind the last of these. -/
theorem Cursor.advanceOver_composes (cursor : Cursor) (s t : String) :
    (Parts s.toList t.toList →
      (cursor.advanceOver s.toList).advanceOver t.toList = cursor.advanceOver (s ++ t).toList) ∧
    (¬Parts s.toList t.toList →
      (cursor.advanceOver s.toList).advanceOver t.toList =
        (cursor.advanceOver (s ++ t).toList).lower) ∧
    ({} : Cursor).advanceOver s.toList = ⟨s.utf8ByteSize,
      ⟨⟨1, 1⟩, ⟨1 + lineBreaks s.toList, 1 + (lastLine s.toList).length⟩⟩⟩ ∧
    lineBreaks s.toList + pairedBreaks s.toList = s.toList.count '\n' + s.toList.count '\r' := by
  rw [String.toList_append, ← byteLength_toList]
  exact ⟨fun h => advanceOver_append_of_parts h cursor,
    fun h => advanceOver_append_of_not_parts h cursor, advanceOver_start s.toList,
    lineBreaks_add_pairedBreaks s.toList⟩

/-- Two carriage returns in front of two line feeds, cut behind the one and behind the other, in the
middle of a line. -/
theorem Cursor.advanceOver_composes_torn :
    let cursor : Cursor := ⟨9, ⟨⟨2, 1⟩, ⟨2, 4⟩⟩⟩
    Parts "é\r".toList "\r\n\n".toList ∧
    (cursor.advanceOver "é\r".toList).advanceOver "\r\n\n".toList =
      cursor.advanceOver ("é\r" ++ "\r\n\n").toList ∧
    ¬Parts "é\r\r".toList "\n\n".toList ∧
    (cursor.advanceOver "é\r\r".toList).advanceOver "\n\n".toList =
      (cursor.advanceOver ("é\r\r" ++ "\n\n").toList).lower := by
  have hparts : Parts "é\r".toList "\r\n\n".toList := by
    unfold Parts
    decide
  have htorn : ¬Parts "é\r\r".toList "\n\n".toList := by
    unfold Parts
    decide
  exact ⟨hparts, (Cursor.advanceOver_composes _ _ _).1 hparts, htorn,
    (Cursor.advanceOver_composes _ _ _).2.1 htorn⟩

end LineCalc
