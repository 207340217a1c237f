import LineCalc.Proofs.Reading.Uncommented

/-!
# Line by line without comments

Without its comments a text has the same lines, unless a comment stands between a carriage return and a
line feed: the two are one line break then. So a text starts with one line that stays one, or with two
lines that become one, and what stands behind them goes on as if it started there.
-/

namespace LineCalc

variable {names : NameGrammar} {c : Char} {chunk before comment : Chunk} {line : Nat}
variable {text tail rest w u stop : List Char} {chunks : List Chunk}

namespace Chunk

/-! ### Line breaks that come together -/

/-- A comment above the line stands directly between the carriage return `before` and a line feed. -/
def isJoint (line : Nat) (before : Chunk) : List Chunk → Bool
  | comment :: behind :: _ => before.chars == ['\r'] && comment.isComment &&
      behind.chars == ['\n'] && decide (comment.span.start.line < line)
  | _ => false

/-- How many comments above the line stand directly between a carriage return and a line feed. Without
such a comment the two are one line break. -/
def joints (line : Nat) : List Chunk → Nat
  | [] => 0
  | before :: rest => (if before.isJoint line rest then 1 else 0) + joints line rest

theorem isJoint_of_ne (h : chunk.chars ≠ ['\r']) (line : Nat) (chunks : List Chunk) :
    chunk.isJoint line chunks = false := by
  unfold isJoint
  split
  · simp [h]
  · rfl

theorem joints_append_of_ne (h : ∀ chunk ∈ chunks, chunk.chars ≠ ['\r']) (line : Nat)
    (more : List Chunk) : joints line (chunks ++ more) = joints line more := by
  induction chunks with
  | nil => rfl
  | cons chunk chunks ih =>
    rw [List.forall_mem_cons] at h
    rw [List.cons_append, joints, isJoint_of_ne h.1, if_neg Bool.false_ne_true, Nat.zero_add, ih h.2]

theorem isJoint_down (k n line : Nat) (before before' : Chunk) (h : before'.chars = before.chars)
    (chunks : List Chunk) :
    before'.isJoint (line + k) (chunks.map (down k n)) = before.isJoint line chunks := by
  match chunks with
  | [] => rfl
  | [_] => rfl
  | comment :: behind :: chunks =>
    have hline : (comment.down k n).span.start.line < line + k ↔ comment.span.start.line < line :=
      Nat.add_lt_add_iff_right
    simp only [List.map_cons, isJoint, h, hline]
    rfl

theorem joints_down (k n line : Nat) (chunks : List Chunk) :
    joints (line + k) (chunks.map (down k n)) = joints line chunks := by
  induction chunks with
  | nil => rfl
  | cons chunk chunks ih =>
    rw [List.map_cons, joints, joints, ih, isJoint_down k n line chunk (chunk.down k n) rfl]

end Chunk

/-! ### The first line of a text -/

theorem exists_lineBreak (hc : isLineBreak c = true) (rest : List Char) :
    ∃ stop rest', c :: rest = stop ++ rest' ∧ LineBreak stop rest' := by
  rcases Bool.or_eq_true_iff.mp hc with hc | hc
  · obtain rfl := beq_iff_eq.mp hc
    exact ⟨['\n'], rest, rfl, .inr (.inl rfl)⟩
  · obtain rfl := beq_iff_eq.mp hc
    by_cases hn : rest.head? = some '\n'
    · obtain ⟨rest, rfl⟩ := List.head?_eq_some_iff.mp hn
      exact ⟨['\r', '\n'], rest, rfl, .inl rfl⟩
    · exact ⟨['\r'], rest, rfl, .inr (.inr ⟨rfl, hn⟩)⟩

/-- No comment, or one. -/
def MayRemark (w : List Char) : Prop := w = [] ∨ IsComment w

/-- A text is one line, or a line and more behind it. -/
theorem Chunk.exists_line (names : NameGrammar) (text : List Char) :
    (∃ u w, text = u ++ w ∧ Inline names w u ∧ MayRemark w) ∨
    ∃ u w stop rest, text = u ++ (w ++ stop) ++ rest ∧ Inline names (w ++ stop) u ∧ MayRemark w ∧
      LineBreak stop rest := by
  obtain ⟨u, tail, rfl, hu, rfl | ⟨rule, w, rest, rfl, hfirst, hrule⟩⟩ := exists_inline names text
  · exact .inl ⟨u, [], rfl, hu, .inl rfl⟩
  rcases hrule with rfl | rfl
  · obtain ⟨hw, hrest⟩ := Rule.isComment_of_first? hfirst
    cases rest with
    | nil =>
      rw [List.append_nil] at hu ⊢
      exact .inl ⟨u, w, rfl, hu, .inr hw⟩
    | cons c rest =>
      obtain ⟨stop, rest', hsplit, hstop⟩ := exists_lineBreak (hrest c rfl) rest
      rw [hsplit] at hu ⊢
      have hends := hstop.ended.append_left w
      rw [← List.append_assoc] at hu ⊢
      refine .inr ⟨u, w, stop, rest', by simp, hu.of_append hends (hstop.parts w), .inr hw, hstop⟩
  · have hstop := Rule.lineBreak_of_first? hfirst
    exact .inr ⟨u, [], w, rest, by simp, hu.of_append hstop.ended (hstop.parts []), .inl rfl, hstop⟩

theorem MayRemark.wordEndsBefore (h : MayRemark w) (ht : Breaks tail) :
    Text.wordEndsBefore (w ++ tail) = true := by
  rcases h with rfl | h
  · exact ht.wordEndsBefore
  · exact Text.wordEndsBefore_of_isComment h tail

namespace Chunk

/-- The comment that may be there is one chunk, and nothing without comments. -/
theorem exists_cut_remark (h : MayRemark w) (ht : Breaks tail) (names : NameGrammar)
    (place : Cursor) : ∃ chunks place', chunks.flatMap chars = w ∧ uncommented chunks = [] ∧
      cutFrom names [] place 0 (w ++ tail) = chunks ++ cutFrom names [] place' 0 tail := by
  rcases h with rfl | h
  · exact ⟨[], place, rfl, rfl, rfl⟩
  · exact ⟨[⟨.matched .comment w, place.collapse.advanceOver w⟩], _, List.append_nil w, rfl,
      cutFrom_matched (h.first? ht names) place⟩

/-- The chunks of a line: without comments its text is `u`. -/
theorem exists_cut_line (hu : Inline names (w ++ tail) u) (hw : MayRemark w) (ht : Breaks tail) :
    ∃ chunks place, chunks.flatMap chars = u ++ w ∧ uncommented chunks = u ∧
      cut names (u ++ (w ++ tail)) = chunks ++ cutFrom names [] place 0 tail := by
  obtain ⟨chunks, hchars, hplain, hcut⟩ := hu.exists_cut (hw.wordEndsBefore ht) {}
  obtain ⟨chunks', place, hchars', hnone, hcut'⟩ :=
    exists_cut_remark hw ht names (behind {} chunks)
  refine ⟨chunks ++ chunks', place, ?_, ?_, ?_⟩
  · rw [List.flatMap_append, hchars, hchars']
  · rw [uncommented_append, uncommented_of_plain hplain, hnone, hchars, List.append_nil]
  · rw [cut, hcut _ (.inl rfl), hcut', List.append_assoc]

theorem inside_line (hu : Inline names (w ++ tail) u) (hw : MayRemark w) :
    ∀ c ∈ u ++ w, isLineBreak c = false := by
  refine List.forall_mem_append.mpr ⟨hu.inside, ?_⟩
  rcases hw with rfl | hw
  · exact fun c hc => nomatch hc
  · exact hw.inside

theorem exists_cut_front (hu : Inline names (w ++ stop) u) (hw : MayRemark w)
    (hs : LineBreak stop rest) : ∃ chunks place, (∀ chunk ∈ chunks, chunk.chars ≠ ['\r']) ∧
      uncommented chunks = u ∧
      cut names (u ++ (w ++ stop)) = chunks ++ [⟨.matched .newLine stop, place⟩] := by
  obtain ⟨chunks, place, hchars, hbare, hcut⟩ := exists_cut_line hu hw hs.breaks
  have hlast : cutFrom names [] place 0 stop =
      [⟨.matched .newLine stop, place.collapse.advanceOver stop⟩] := by
    rcases hs with rfl | rfl | ⟨rfl, -⟩ <;> rfl
  refine ⟨chunks, _, fun chunk hc he => ?_, hbare, hlast ▸ hcut⟩
  have hmem : '\r' ∈ u ++ w := hchars ▸ List.mem_flatMap.mpr ⟨chunk, hc, by rw [he]; simp⟩
  cases inside_line hu hw _ hmem

theorem lineBreaks_front (hu : Inline names (w ++ stop) u) (hw : MayRemark w)
    (hs : LineBreak stop rest) : lineBreaks (u ++ (w ++ stop)) = 1 := by
  rw [← List.append_assoc, lineBreaks_append (inside_line hu hw), hs.lineBreaks_eq]

/-- Behind the first line the text goes on as if it started there. -/
theorem exists_cut_front_append (hu : Inline names (w ++ stop) u) (hw : MayRemark w)
    (hs : LineBreak stop rest) :
    uncommented (cut names (u ++ (w ++ stop) ++ rest)) =
      u ++ stop ++ uncommented (cut names rest) ∧
    ∃ last : Chunk, last.chars = stop ∧ ∀ line, joints (line + 1) (cut names (u ++ (w ++ stop) ++ rest)) =
      (if last.isJoint line (cut names rest) then 1 else 0) + joints line (cut names rest) := by
  have hends := (hs.ended.append_left w).append_left u
  have hparts : Parts (u ++ (w ++ stop)) rest := List.append_assoc u w stop ▸ hs.parts (u ++ w)
  obtain ⟨chunks, place, hne, hbare, hfront⟩ := exists_cut_front hu hw hs
  constructor
  · rw [uncommented_cut_append names hends hparts, hfront, uncommented_append, hbare]
    simp [uncommented, isComment, chars, Shape.chars]
  · obtain ⟨n, hcut⟩ := exists_cut_append names hends hparts
    rw [lineBreaks_front hu hw hs] at hcut
    refine ⟨⟨.matched .newLine stop, place⟩, rfl, fun line => ?_⟩
    rw [hcut, hfront, List.append_assoc, joints_append_of_ne hne, List.singleton_append, joints,
      joints_down, isJoint_down 1 n line _ _ rfl]

end Chunk

/-! ### One line, or two that become one -/

namespace Chunk

theorem exists_of_cutFrom_comment {place : Cursor}
    (h : cutFrom names [] place 0 text = comment :: chunks) (hc : comment.isComment = true) :
    ∃ rest, text = comment.chars ++ rest ∧ IsComment comment.chars ∧
      comment.span.start = place.span.stop := by
  induction place, text using cut_induction names with
  | nil place => cases h
  | illegal place c rest hfirst _ =>
    rw [cutFrom_illegal hfirst] at h
    obtain ⟨rfl, -⟩ := List.cons.inj h
    cases hc
  | matched place rule w rest hfirst _ =>
    rw [cutFrom_matched hfirst] at h
    obtain ⟨rfl, -⟩ := List.cons.inj h
    obtain rfl : rule = .comment := by
      unfold isComment at hc
      split at hc
      · rename_i hs
        exact (Shape.matched.inj hs).1
      · cases hc
    exact ⟨rest, rfl, (Rule.isComment_of_first? hfirst).1, Cursor.start_advanceOver ..⟩

/-- In front of a joint the line ends with a carriage return, and behind it with a line feed. -/
theorem exists_of_isJoint (h : before.isJoint line (cut names text) = true) :
    before.chars = ['\r'] ∧ 1 < line ∧ ∃ w rest, text = w ++ '\n' :: rest ∧ IsComment w := by
  unfold isJoint at h
  split at h
  · rename_i comment behind chunks hcut
    simp only [Bool.and_eq_true, beq_iff_eq, decide_eq_true_eq] at h
    obtain ⟨⟨⟨hbefore, hcomment⟩, hbehind⟩, hline⟩ := h
    obtain ⟨-, -, hw, hstart⟩ := exists_of_cutFrom_comment hcut hcomment
    rw [hstart] at hline
    refine ⟨hbefore, hline, comment.chars, chunks.flatMap chars, ?_, hw⟩
    rw [← flatMap_chars_cut names text, hcut, List.flatMap_cons, List.flatMap_cons, hbehind]
    rfl
  · cases h

theorem joints_zero (chunks : List Chunk) : joints 0 chunks = 0 := by
  induction chunks with
  | nil => rfl
  | cons before rest ih =>
    have hnone : before.isJoint 0 rest = false := by
      unfold isJoint
      split <;> simp
    rw [joints, hnone, ih]
    rfl

/-- There is no joint on a single line. -/
theorem joints_single (hu : Inline names w u) (hw : MayRemark w) (line : Nat) :
    joints line (cut names (u ++ w)) = 0 := by
  obtain ⟨chunks, place, hchars, -, hcut⟩ :=
    exists_cut_line ((List.append_nil w).symm ▸ hu) hw breaks_nil
  rw [List.append_nil] at hcut
  have hne : ∀ chunk ∈ chunks, chunk.chars ≠ ['\r'] := by
    intro chunk hc he
    have hmem : '\r' ∈ u ++ w := hchars ▸ List.mem_flatMap.mpr ⟨chunk, hc, by rw [he]; simp⟩
    cases inside_line ((List.append_nil w).symm ▸ hu) hw _ hmem
  rw [hcut]
  exact joints_append_of_ne hne line []

/-- There is none above the third line either. -/
theorem joints_le_two (names : NameGrammar) (text : List Char) (h : line ≤ 2) :
    joints line (cut names text) = 0 := by
  induction line generalizing text with
  | zero => exact joints_zero _
  | succ line ih =>
    obtain ⟨u, w, rfl, hu, hw⟩ | ⟨u, w, stop, rest, rfl, hu, hw, hs⟩ := exists_line names text
    · exact joints_single hu hw _
    · obtain ⟨-, last, -, hjoints⟩ := exists_cut_front_append hu hw hs
      have hnone : last.isJoint line (cut names rest) = false := by
        refine Bool.eq_false_iff.mpr fun hjoint => ?_
        obtain ⟨-, hline, -⟩ := exists_of_isJoint hjoint
        omega
      rw [hjoints, hnone, ih rest (by omega)]
      rfl

theorem uncommented_single (hu : Inline names w u) (hw : MayRemark w) :
    uncommented (cut names (u ++ w)) = u := by
  obtain ⟨chunks, place, -, hbare, hcut⟩ :=
    exists_cut_line ((List.append_nil w).symm ▸ hu) hw breaks_nil
  rw [List.append_nil] at hcut
  rw [hcut, ← hbare]
  exact congrArg uncommented (List.append_nil chunks)

/-- The text starts with the line `u`, with the comment `w` perhaps, and `stop` ends it. Without comments
`stop'` ends it, and what is left of `rest` stands behind it. If there is `more` between, this is the
rest of a joint, and `stop'` is both of its line breaks. -/
structure Head (names : NameGrammar) (text u w stop stop' more rest : List Char) : Prop where
  whole : text = u ++ (w ++ stop) ++ (more ++ rest)
  inline : Inline names (w ++ stop) u
  remark : MayRemark w
  breaks : LineBreak stop (more ++ rest)
  breaks' : LineBreak stop' (uncommented (cut names rest))
  joint : more = [] ∨ ∃ w', more = w' ++ ['\n'] ∧ IsComment w'
  bare : uncommented (cut names text) = u ++ stop' ++ uncommented (cut names rest)
  joints : ∀ line, 0 < line → joints (line + 1 + lineBreaks more) (cut names text) =
    joints line (cut names rest) + lineBreaks more

/-- The second line of a joint. -/
theorem cut_joint (hw : IsComment w) (names : NameGrammar) (rest : List Char) :
    uncommented (cut names (w ++ '\n' :: rest)) = '\n' :: uncommented (cut names rest) ∧
    (∀ line, joints (line + 1) (cut names (w ++ '\n' :: rest)) = joints line (cut names rest)) ∧
    ∀ before : Chunk, before.chars = ['\r'] → ∀ line, 1 < line →
      before.isJoint line (cut names (w ++ '\n' :: rest)) = true := by
  have hbreak : LineBreak ['\n'] rest := .inr (.inl rfl)
  have hwhole : w ++ '\n' :: rest = [] ++ (w ++ ['\n']) ++ rest := by simp
  obtain ⟨hbare, last, hlast, hjoints⟩ :=
    exists_cut_front_append .nil (.inr hw) hbreak
  rw [← hwhole] at hbare hjoints
  refine ⟨hbare, fun line => ?_, fun before hb line hl => ?_⟩
  · rw [hjoints, isJoint_of_ne (by rw [hlast]; decide)]
    exact Nat.zero_add _
  · -- the comment is the first chunk, and the line feed behind it stands on the first line of the
    -- rest
    have hends : Breaks ('\n' :: rest) := by
      intro c hc
      obtain rfl := Option.some.inj hc
      rfl
    have hn : Rule.first? names (['\n'] ++ rest) = some (.newLine, ['\n'].length) := rfl
    have hcut := cutFrom_matched (hw.first? hends names) {}
    rw [← List.singleton_append, cutFrom_matched hn] at hcut
    rw [← List.singleton_append, cut, hcut]
    have hstart : (Cursor.advanceOver (Cursor.collapse {}) w).span.start.line = 1 := by
      rw [Cursor.start_advanceOver]
      rfl
    simp only [isJoint, hb]
    show (true && decide ((Cursor.advanceOver (Cursor.collapse {}) w).span.start.line < line)) = true
    rw [hstart, decide_eq_true hl]
    rfl

/-- Two lines that become one. -/
theorem Head.ofJoint (hu : Inline names (w ++ ['\r']) u) (hw : MayRemark w) {w' : List Char}
    (hw' : IsComment w') (rest : List Char) :
    Head names (u ++ (w ++ ['\r']) ++ (w' ++ '\n' :: rest)) u w ['\r'] ['\r', '\n'] (w' ++ ['\n'])
      rest := by
  have hhead : (w' ++ '\n' :: rest).head? ≠ some '\n' := by
    obtain ⟨body, rfl, -⟩ := hw'
    simp
  have hs : LineBreak ['\r'] (w' ++ '\n' :: rest) := .inr (.inr ⟨rfl, hhead⟩)
  have hsplit : w' ++ ['\n'] ++ rest = w' ++ '\n' :: rest := by simp
  have hone : lineBreaks (w' ++ ['\n']) = 1 := by
    rw [lineBreaks_append hw'.inside]
    rfl
  obtain ⟨hbare, last, hlast, hjoints⟩ := exists_cut_front_append hu hw hs
  obtain ⟨hbare', hjoints', hjoint⟩ := cut_joint hw' names rest
  refine ⟨by rw [hsplit], hu, hw, hsplit ▸ hs, .inl rfl, .inr ⟨w', rfl, hw'⟩, ?_, fun line hline => ?_⟩
  · rw [hbare, hbare']
    simp
  · rw [hone, hjoints, hjoint last hlast _ (Nat.lt_add_of_pos_left hline), hjoints', if_pos rfl,
      Nat.add_comm]

/-- A line that stays one. -/
theorem Head.ofLine (hu : Inline names (w ++ stop) u) (hw : MayRemark w) (hs : LineBreak stop rest)
    (hnone : ∀ w' rest', stop = ['\r'] → rest = w' ++ '\n' :: rest' → ¬IsComment w') :
    Head names (u ++ (w ++ stop) ++ rest) u w stop stop [] rest := by
  obtain ⟨hbare, last, hlast, hjoints⟩ := exists_cut_front_append hu hw hs
  refine ⟨rfl, hu, hw, hs, ?_, .inl rfl, hbare, fun line hline => ?_⟩
  · -- a line feed in front of which a comment stood would make a joint
    refine hs.imp_right (.imp_right fun ⟨hr, hrest⟩ => ⟨hr, fun hhead => ?_⟩)
    obtain ⟨u', w', rfl, hu', hw'⟩ | ⟨u', w', stop', rest', rfl, hu', hw', hs'⟩ :=
      exists_line names rest
    · rw [uncommented_single hu' hw'] at hhead
      cases hu'.inside _ (List.mem_of_mem_head? hhead)
    · obtain ⟨hbare', -⟩ := exists_cut_front_append hu' hw' hs'
      rw [hbare'] at hhead
      cases u' with
      | cons c u' =>
        obtain rfl := Option.some.inj hhead
        cases hu'.inside _ List.mem_cons_self
      | nil =>
        obtain rfl : stop' = ['\n'] := by
          rcases hs' with rfl | rfl | ⟨rfl, -⟩
          · cases hhead
          · rfl
          · cases hhead
        rcases hw' with rfl | hw'
        · exact hrest rfl
        · exact hnone w' rest' hr (by simp) hw'
  · -- the line break is no joint, since no comment stands in front of a line feed behind it
    have hno : last.isJoint line (cut names rest) = false := by
      refine Bool.eq_false_iff.mpr fun hjoint => ?_
      obtain ⟨hr, -, w', rest', hrest, hw'⟩ := exists_of_isJoint hjoint
      exact hnone w' rest' (hlast.symm.trans hr) hrest hw'
    show Chunk.joints (line + 1) _ = _
    rw [hjoints, hno]
    exact Nat.zero_add _

theorem Head.parts {stop' more : List Char} (h : Head names text u w stop stop' more rest) :
    Parts (u ++ (w ++ stop)) more := by
  rw [← List.append_assoc]
  exact (h.breaks.of_prefix (List.prefix_append more rest)).parts (u ++ w)

/-- The lines in front end, and can be cut off. -/
theorem Head.ends {stop' more : List Char} (h : Head names text u w stop stop' more rest) :
    Ended (u ++ (w ++ stop) ++ more) ∧ Parts (u ++ (w ++ stop) ++ more) rest ∧
      lineBreaks (u ++ (w ++ stop) ++ more) = 1 + lineBreaks more := by
  have hone := lineBreaks_front h.inline h.remark h.breaks
  rcases h.joint with rfl | ⟨w', rfl, hw'⟩
  · rw [List.append_nil, hone]
    refine ⟨(h.breaks.ended.append_left w).append_left u, ?_, rfl⟩
    rw [← List.append_assoc]
    exact h.breaks.parts (u ++ w)
  · have hbreak : LineBreak ['\n'] rest := .inr (.inl rfl)
    refine ⟨(hbreak.ended.append_left w').append_left _, ?_, ?_⟩
    · rw [← List.append_assoc]
      exact hbreak.parts _
    · rw [lineBreaks_append_of_parts h.parts, hone]

/-- A text is a single line, or it starts with one that ends. -/
theorem exists_head (names : NameGrammar) (text : List Char) :
    (∃ u w, text = u ++ w ∧ Inline names w u ∧ MayRemark w) ∨
    ∃ u w stop stop' more rest, Head names text u w stop stop' more rest := by
  obtain hsingle | ⟨u, w, stop, rest, rfl, hu, hw, hs⟩ := exists_line names text
  · exact .inl hsingle
  · right
    by_cases hjoint : ∃ w' rest', stop = ['\r'] ∧ rest = w' ++ '\n' :: rest' ∧ IsComment w'
    · obtain ⟨w', rest', rfl, rfl, hw'⟩ := hjoint
      exact ⟨u, w, _, _, _, rest', .ofJoint hu hw hw' rest'⟩
    · exact ⟨u, w, stop, stop, [], rest, .ofLine hu hw hs fun w' rest' hr hrest hw' =>
        hjoint ⟨w', rest', hr, hrest, hw'⟩⟩

end Chunk

end LineCalc
