import LineCalc.Proofs.Reading.Breaks
import Mathlib.Data.List.DropRight

/-!
# The place behind a text

The position behind a text can be told from the text alone: its line by the lines that end in the
text, and its column by what stands behind the last line break. A cursor keeps count of it chunk by
chunk, and looks no further than the end of the chunk. That is enough, since no chunk ends between a
carriage return and its line feed.
-/

namespace LineCalc

/-- What stands behind the last line break of a text. -/
def lastLine (text : List Char) : List Char := text.rtakeWhile fun c => !isLineBreak c

/-- The position behind a text. -/
def Position.behind (text : List Char) : Position where
  line := 1 + lineBreaks text
  column := 1 + (lastLine text).length

section

variable {u w v : List Char}

theorem lastLine_of_ended (h : Ended u) : lastLine u = [] := by
  obtain ⟨body, c, rfl, hc⟩ := h
  exact List.rtakeWhile_concat_neg _ _ _ (by simp [hc])

theorem lastLine_append (h : ∀ c ∈ w, isLineBreak c = false) (u : List Char) :
    lastLine (u ++ w) = lastLine u ++ w := by
  have hr : ∀ c ∈ w.reverse, (!isLineBreak c) = true := by
    intro c hc
    rw [h c (List.mem_reverse.mp hc)]
    rfl
  unfold lastLine List.rtakeWhile
  rw [List.reverse_append, List.takeWhile_append_of_pos hr, List.reverse_append,
    List.reverse_reverse]

/-- Only a carriage return in front of a line feed ends no line although it is a line break. -/
theorem Cursor.endsLine_eq_isLineBreak {c : Char} {next : Option Char}
    (h : ¬(c = '\r' ∧ next = some '\n')) : endsLine c next = isLineBreak c := by
  unfold endsLine isLineBreak
  by_cases hc : c = '\r'
  · have hn : (next != some '\n') = true := bne_iff_ne.mpr fun hn => h ⟨hc, hn⟩
    rw [hn, Bool.and_true]
  · have hc : (c == '\r') = false := beq_eq_false_iff_ne.mpr hc
    rw [hc, Bool.false_and]

theorem Cursor.endsLine_none (c : Char) : endsLine c none = isLineBreak c :=
  endsLine_eq_isLineBreak fun h => nomatch h.2

/-- What follows matters to a character only where a line break is torn apart. -/
theorem Cursor.endsLine_of_parts {c : Char} (h : Parts [c] w) :
    endsLine c w.head? = endsLine c none := by
  have hwhole : ¬(c = '\r' ∧ w.head? = some '\n') := by
    rintro ⟨rfl, hn⟩
    exact h ⟨rfl, hn⟩
  rw [endsLine_eq_isLineBreak hwhole, endsLine_none]

theorem Parts.of_cons {c d : Char} (h : Parts (c :: d :: u) w) : Parts (d :: u) w := by
  rintro ⟨hd, hw⟩
  exact h ⟨by rw [List.getLast?_cons_cons, hd], hw⟩

/-- The lines that end in two texts are those of the one and those of the other, when no line break
is torn apart. -/
theorem lineBreaks_append_of_parts (h : Parts u w) :
    lineBreaks (u ++ w) = lineBreaks u + lineBreaks w := by
  induction u with
  | nil => simp [lineBreaks]
  | cons c u ih =>
    cases u with
    | nil =>
      show (if Cursor.endsLine c w.head? then 1 else 0) + lineBreaks w =
        (if Cursor.endsLine c none then 1 else 0) + 0 + lineBreaks w
      rw [Cursor.endsLine_of_parts h, Nat.add_zero]
    | cons d u =>
      show _ + lineBreaks (d :: u ++ w) = _ + lineBreaks (d :: u) + lineBreaks w
      rw [ih h.of_cons, Nat.add_assoc]
      rfl

theorem Parts.of_append (h : Parts u (w ++ v)) (hw : w ≠ []) : Parts u w := by
  obtain ⟨c, w, rfl⟩ := List.exists_cons_of_ne_nil hw
  exact h

theorem Parts.nil_left (t : List Char) : Parts [] t := by
  rintro ⟨h, -⟩
  cases h

/-- Nothing is torn apart behind characters that end no line. -/
theorem Parts.of_inside (h : ∀ c ∈ w, isLineBreak c = false) (hw : w ≠ []) (u v : List Char) :
    Parts (u ++ w) v := by
  rintro ⟨hl, -⟩
  rw [List.getLast?_append_of_ne_nil _ hw] at hl
  have hr := h '\r' (List.mem_of_getLast? hl)
  cases hr

theorem LineBreak.ended (h : LineBreak w v) : Ended w := by
  rcases h with rfl | rfl | ⟨rfl, -⟩
  · exact ⟨['\r'], '\n', rfl, rfl⟩
  · exact ⟨[], '\n', rfl, rfl⟩
  · exact ⟨[], '\r', rfl, rfl⟩

theorem LineBreak.parts (h : LineBreak w v) (u : List Char) : Parts (u ++ w) v := by
  rintro ⟨hl, hv⟩
  rw [List.getLast?_append_of_ne_nil _ h.ended.ne_nil] at hl
  rcases h with rfl | rfl | ⟨-, hn⟩
  · cases hl
  · cases hl
  · exact hn hv

theorem LineBreak.lineBreaks_eq (h : LineBreak w v) : lineBreaks w = 1 := by
  rcases h with rfl | rfl | ⟨rfl, -⟩ <;> rfl

theorem Ended.append_left (h : Ended w) (u : List Char) : Ended (u ++ w) := by
  obtain ⟨body, c, rfl, hc⟩ := h
  exact ⟨u ++ body, c, by rw [List.append_assoc], hc⟩

end

namespace Position

variable {u w v : List Char}

@[simp] theorem behind_nil : behind [] = {} := rfl

theorem behind_of_ended (h : Ended u) : behind u = ⟨1 + lineBreaks u, 1⟩ := by
  rw [behind, lastLine_of_ended h]
  rfl

theorem behind_append (h : ∀ c ∈ w, isLineBreak c = false) (hp : Parts u w) :
    behind (u ++ w) = ⟨(behind u).line, (behind u).column + w.length⟩ := by
  rw [behind, lastLine_append h, lineBreaks_append_of_parts hp, lineBreaks_eq_zero h,
    List.length_append]
  show Position.mk _ (1 + (_ + _)) = Position.mk _ (1 + _ + _)
  rw [Nat.add_assoc]
  rfl

theorem behind_lineBreak (h : LineBreak w v) (hp : Parts u w) :
    behind (u ++ w) = ⟨(behind u).line + 1, 1⟩ := by
  rw [behind_of_ended (h.ended.append_left u), lineBreaks_append_of_parts hp, h.lineBreaks_eq,
    ← Nat.add_assoc]
  rfl

end Position

/-! ### Chunks -/

/-- Over characters that end no line a cursor moves along the line. -/
theorem Cursor.stop_advanceOver_inside (cursor : Cursor) {w : List Char}
    (h : ∀ c ∈ w, isLineBreak c = false) :
    (cursor.advanceOver w).span.stop =
      ⟨cursor.span.stop.line, cursor.span.stop.column + w.length⟩ := by
  induction w generalizing cursor with
  | nil => rfl
  | cons c w ih =>
    have hc : (cursor.advance c w.head?).span.stop =
        ⟨cursor.span.stop.line, cursor.span.stop.column + 1⟩ := by
      show positionAfter _ _ _ = _
      rw [positionAfter, if_neg (by simp [endsLine_eq_false (h c List.mem_cons_self)])]
    rw [advanceOver_cons, ih _ fun b hb => h b (List.mem_cons_of_mem c hb), hc, List.length_cons]
    show Position.mk _ (_ + 1 + _) = Position.mk _ (_ + (_ + 1))
    rw [Nat.add_assoc, Nat.add_comm 1]

namespace Chunk

variable {names : NameGrammar} {c : Char} {rest u v : List Char} {cursor : Cursor}

/-- How many lines end with a chunk. -/
def lines (chunk : Chunk) : Nat :=
  match chunk.shape with
  | .matched .newLine _ => 1
  | _ => 0

theorem lines_eq_one {chunk : Chunk} {w : List Char} (h : chunk.shape = .matched .newLine w) :
    chunk.lines = 1 := by
  rw [lines, h]

/-- The first character of a line break is one. -/
theorem lines_first (h : isLineBreak c = false) : (first names cursor c rest).lines = 0 := by
  unfold lines
  split
  · rename_i w hw
    have hf : Shape.first names c rest = .matched .newLine w := hw
    unfold Shape.first at hf
    split at hf
    · rename_i r n hr
      obtain ⟨rfl, -⟩ := Shape.matched.inj hf
      have hl := Rule.length?_of_first? hr
      obtain ⟨hn, hr⟩ : c ≠ '\n' ∧ c ≠ '\r' := by simpa [isLineBreak] using h
      simp [Rule.length?, lineBreakLength?, hn, hr] at hl
    · cases hf
  · rfl

/-- Where a chunk stands: behind the text `u`, and in front of `v`. -/
structure Between (u v : List Char) (chunk : Chunk) : Prop where
  nonempty : chunk.chars ≠ []
  span : chunk.span = ⟨.behind u, .behind (u ++ chunk.chars)⟩
  lines : lineBreaks (u ++ chunk.chars) = lineBreaks u + chunk.lines
  /-- A chunk with which no line ends has no line break in it. -/
  inside : chunk.lines = 0 → ∀ c ∈ chunk.chars, isLineBreak c = false
  ended : chunk.lines = 1 → Ended chunk.chars
  /-- The line breaks at its end are whole. -/
  parts : Parts (u ++ chunk.chars) v

/-- A cursor that knows the place behind a text knows the places of the next chunk. -/
theorem between_first (hc : cursor.span.stop = .behind u) (hp : Parts u (c :: rest))
    (hv : (first names cursor c rest).chars ++ v = c :: rest) :
    (first names cursor c rest).Between u v := by
  obtain ⟨n, hn⟩ := chars_first names cursor c rest
  have hne : (first names cursor c rest).chars ≠ [] := by simp [hn]
  have hpw : Parts u (first names cursor c rest).chars := (hv ▸ hp).of_append hne
  have hstart : (first names cursor c rest).span.start = .behind u := by
    show (cursor.collapse.advanceOver _).span.start = _
    rw [Cursor.start_advanceOver]
    exact hc
  -- a chunk ends no line, or is a line break
  rcases Shape.first_cases names c rest with hin | ⟨w, v', hw, he, hb⟩
  · have hin : ∀ b ∈ (first names cursor c rest).chars, isLineBreak b = false := hin
    have hstop : (first names cursor c rest).span.stop =
        .behind (u ++ (first names cursor c rest).chars) := by
      rw [Position.behind_append hin hpw, ← hc]
      exact Cursor.stop_advanceOver_inside _ hin
    have hl : (first names cursor c rest).lines = 0 := lines_first (hin c (by simp [hn]))
    refine ⟨hne, by rw [← hstart, ← hstop], ?_, fun _ => hin, fun h1 => ?_,
      .of_inside hin hne u v⟩
    · rw [lineBreaks_append_of_parts hpw, lineBreaks_eq_zero hin, hl]
    · rw [hl] at h1
      cases h1
  · have hs : (first names cursor c rest).shape = .matched .newLine w := hw
    have hcw : (first names cursor c rest).chars = w := by rw [chars, hs, Shape.chars]
    obtain rfl : v = v' := by
      rw [← hv, hcw] at he
      exact List.append_cancel_left he
    rw [hcw] at hpw
    have hstop : (first names cursor c rest).span.stop = .behind (u ++ w) := by
      rw [Position.behind_lineBreak hb hpw, ← hc]
      show (cursor.collapse.advanceOver (first names cursor c rest).chars).span.stop = _
      rw [hcw, Cursor.stop_advanceOver _ hb]
      rfl
    have hl := lines_eq_one hs
    refine ⟨hne, by rw [hcw, ← hstart, ← hstop], ?_, fun h0 => ?_, fun _ => hcw ▸ hb.ended, ?_⟩
    · rw [hcw, lineBreaks_append_of_parts hpw, hb.lineBreaks_eq, hl]
    · rw [hl] at h0
      cases h0
    · rw [hcw]
      exact hb.parts u

end Chunk

end LineCalc
