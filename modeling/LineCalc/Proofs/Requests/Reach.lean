import LineCalc.Proofs.Transcript.Lines

/-!
# How far a script has read

A statement looks at nothing but its line. When it succeeds, the script stands behind the line break
and has looked at nothing more, or it stands at the end of the input and has looked at just that.
When it fails, two tokens at most were looked at and not taken, all of them on its line. A request to
recover reads what is left of the line. So between two requests a script has read nothing behind the
last line that it evaluated, and `Script.Behind` says where it stands.
-/

namespace LineCalc

open Grammar Move

/-! ### The first lines of a text -/

/-- The text `u` consists of the first `k` lines of another text, each with its line break. Only the
last line of a text has none. -/
inductive FirstLines : Nat → List Char → List Char → Prop where
  | zero (text : List Char) : FirstLines 0 [] text
  | broken {u v : List Char} (hu : Ended u) (hp : Parts u v) : FirstLines (lineBreaks u) u (u ++ v)
  | all (text : List Char) : FirstLines (lineBreaks text + 1) text text

/-- Some readings are those of `k` lines: nothing is read behind the last line break. -/
structure Reading.TakesLines (k : Nat) (rs : List Reading) : Prop where
  lines : newLines (tokens rs) = k
  last : ∀ r, rs.getLast? = some r → ∃ t, r.item = .ok t ∧ t.kind = .newLine

namespace Reading.TakesLines

variable {names : NameGrammar} {source : String} {k k' : Nat} {rs rs' more more' : List Reading}

theorem nil : TakesLines 0 [] := ⟨rfl, nofun⟩

/-- Of two beginnings of the same readings the one with fewer lines is the beginning of the other. -/
theorem isPrefix (h : TakesLines k rs) (h' : TakesLines k' rs') (he : rs ++ more = rs' ++ more')
    (hk : k ≤ k') : rs <+: rs' := by
  rcases List.append_eq_append_iff.mp he with ⟨mid, rfl, -⟩ | ⟨mid, rfl, -⟩
  · exact List.prefix_append _ _
  · rcases List.eq_nil_or_concat mid with rfl | ⟨init, r, rfl⟩
    · simp
    · -- the readings behind would end with one more line break
      obtain ⟨t, hr, ht⟩ := h.last r (by simp)
      have htok : tokens [r] = [t] := by
        obtain ⟨chunks, item⟩ := r
        obtain rfl : item = .ok t := hr
        rfl
      have hlines := h.lines
      rw [List.concat_eq_append, tokens_append, tokens_append, newLines_append, newLines_append, htok,
        newLines_singleton, if_pos ht, h'.lines] at hlines
      omega

/-- Readings of whole lines take the first lines of the text. -/
theorem firstLines (h : TakesLines k rs) (he : ofText names source = rs ++ more) :
    FirstLines k (text rs) source.toList := by
  have hlines := lineBreaks_text he
  rw [h.lines] at hlines
  rcases List.eq_nil_or_concat rs with rfl | ⟨init, r, rfl⟩
  · rw [← h.lines]
    exact .zero _
  · obtain ⟨t, hr, ht⟩ := h.last r (by simp)
    rw [List.concat_eq_append, List.append_assoc] at he
    obtain ⟨front, back, n, hsource, hfront, hended, hparts, -⟩ :=
      Reader.exists_of_ofText_eq (show ofText names source = init ++ r :: more from he) hr ht
    rw [List.concat_eq_append, ← hfront] at hlines ⊢
    rw [hsource, String.toList_append, ← hlines]
    exact .broken hended hparts

end Reading.TakesLines

/-- What was read of a text is the text `u`. -/
def Script.HasRead (names : NameGrammar) (source : String) (u : List Char) (s : Script) : Prop :=
  ∃ done, Reading.ofText names source = done ++ s.unread ∧ Reading.text done = u

/-! ### How far a script looks -/

/-- The move looks no further than at the token behind the next one. -/
def Move.Near : Move → Prop
  | .look n => n ≤ 1
  | _ => True

theorem Move.Ordinary.near {x : Move} (h : x.Ordinary) : x.Near := by
  cases h with
  | first => exact Nat.zero_le 1
  | second => exact Nat.le_refl 1
  | _ => trivial

theorem Grammar.Slip.near_moves (scope : Scope) (x : Slip) : ∀ y ∈ x.moves scope, y.Near := by
  obtain ⟨inner, hm, hinner⟩ := x.exists_moves_eq scope
  rw [hm]
  simp only [List.forall_mem_cons]
  exact ⟨trivial, Nat.zero_le 1, trivial, fun y hy => (hinner y hy).near⟩

namespace Script

variable {s t : Script} {m : List Move} {n : Nat}

/-- Reading on stops as soon as enough tokens can be looked at. -/
theorem length_lookahead_fillFrom {rs : List Reading} (h : s.fillFrom n rs = some t) :
    t.lookahead.length ≤ max s.lookahead.length (n + 1) := by
  induction rs generalizing s with
  | nil =>
    obtain ⟨last, -, rfl⟩ := Option.map_eq_some_iff.mp h
    simp only [List.length_append, List.length_replicate]
    omega
  | cons r rs ih =>
    rw [fillFrom] at h
    split at h
    · obtain rfl := Option.some.inj h
      exact Nat.le_max_left _ _
    next hn =>
      have hlen : (s.absorb r).lookahead.length ≤ s.lookahead.length + 1 := by
        obtain ⟨chunks, item⟩ := r
        cases item with
        | ok tok => simp [absorb]
        | error d => exact Nat.le_succ _
      have := ih h
      omega

theorem length_lookahead_act {x : Move} (hx : x.Near) (h : s.lookahead.length ≤ 2) :
    (s.act x).lookahead.length ≤ 2 := by
  have hfill : ∀ n ≤ 1, ((s.fillFrom n s.unread).getD s).lookahead.length ≤ 2 := by
    intro n hn
    cases hf : s.fillFrom n s.unread with
    | none => exact h
    | some t =>
      have := length_lookahead_fillFrom hf
      show t.lookahead.length ≤ 2
      omega
  cases x with
  | look n => exact hfill n hx
  | take tok =>
    have hlen := hfill 0 (Nat.zero_le 1)
    show (((s.fillFrom 0 s.unread).getD s).shift tok).lookahead.length ≤ 2
    generalize (s.fillFrom 0 s.unread).getD s = t at hlen
    rw [shift]
    split
    · exact hlen
    · rw [List.length_tail]
      exact Nat.le_trans (Nat.sub_le _ _) hlen
  | _ => exact h

theorem length_lookahead_acts (hm : ∀ x ∈ m, x.Near) (h : s.lookahead.length ≤ 2) :
    (s.acts m).lookahead.length ≤ 2 := by
  induction m generalizing s with
  | nil => exact h
  | cons x m ih =>
    rw [List.forall_mem_cons] at hm
    exact ih hm.2 (length_lookahead_act hm.1 h)

end Script

/-! ### On the line of a row -/

namespace InRow

variable {names : NameGrammar} {source : String} {s : Script} {front line more : List Reading}
variable {before row body : List Token} {stop : LineEnd}

/-- The tokens that were looked at stand on the line of the row. -/
theorem line_of_mem_lookahead
    (h : InRow (Reading.ofText names source) front line more before row s) {t : Token}
    (ht : t ∈ s.lookahead) : t.span.start.line = 1 + newLines before := by
  obtain ⟨pre, post, hlook⟩ := List.append_of_mem ht
  have hrow : row = pre ++ t :: (post ++ Reading.tokens line) := by
    rw [← h.ahead, hlook, List.append_assoc]
    rfl
  have htokens : Reading.tokens front = (before ++ pre) ++ t :: (post ++ Reading.tokens line) := by
    rw [h.tokens, hrow, List.append_assoc]
  have hrow' : IsRow (pre ++ t :: (post ++ Reading.tokens line)) := hrow ▸ h.isRow
  rw [Reading.line_of_tokens_eq h.whole htokens, newLines_append, hrow'.newLines_body]
  rfl

/-- So does what is still to be read of it. -/
theorem line_of_mem_line (h : InRow (Reading.ofText names source) front line more before row s)
    {r : Reading} (hr : r ∈ line) : r.span.start.line = 1 + newLines before := by
  obtain ⟨pre, post, hline⟩ := List.append_of_mem hr
  obtain ⟨done, hdone⟩ := h.suffix
  have hfront : Reading.ofText names source = (done ++ pre) ++ r :: (post ++ more) := by
    rw [h.whole, hdone, hline]
    simp
  -- the last reading of the row is a token, so the row goes on behind what was read of it
  have hne : Reading.tokens (r :: post) ≠ [] := by
    intro hnil
    obtain ⟨init, last, tok, hinit, hlast⟩ := h.last
    have hwhole : (done ++ pre) ++ r :: post = init ++ [last] := by
      rw [← hinit, hdone, hline, List.append_assoc]
    cases Reading.eq_nil_of_tokens_eq_nil hwhole hlast hnil
  obtain ⟨t, rest, hcons⟩ := List.exists_cons_of_ne_nil hne
  have hrow : row = (s.lookahead ++ Reading.tokens pre) ++ t :: rest := by
    rw [← h.ahead, hline, Reading.tokens_append, hcons, List.append_assoc]
  have hdoneTokens : Reading.tokens done = before ++ s.lookahead := by
    have htokens := h.tokens
    rw [hdone, Reading.tokens_append, ← h.ahead, ← List.append_assoc] at htokens
    exact List.append_cancel_right htokens
  have hrow' : IsRow ((s.lookahead ++ Reading.tokens pre) ++ t :: rest) := hrow ▸ h.isRow
  rw [Reading.line_start hfront, Reading.tokens_append, hdoneTokens, List.append_assoc,
    newLines_append, hrow'.newLines_body]
  rfl

/-- A row that ends with a line break ends a line of the text. -/
theorem takesLines {rs : List Reading} (h : InRow rs front line more before (body ++ [stop.1]) s)
    (hk : stop.1.kind = .newLine) : Reading.TakesLines (1 + newLines before) front where
  lines := by
    rw [h.tokens, newLines_append, newLines_append, h.isRow.newLines_body, newLines_singleton,
      if_pos hk, Nat.zero_add, Nat.add_comm]
  last r hr := by
    obtain ⟨done, r', hfront, hr'⟩ := h.exists_last
    rw [hfront, List.getLast?_concat] at hr
    obtain rfl := Option.some.inj hr
    exact ⟨stop.1, hr', hk⟩

/-- A row that ends with the end of the input is on the last line of the text. -/
theorem text_front_of_endOfInput
    (h : InRow (Reading.ofText names source) front line more before (body ++ [stop.1]) s)
    (hk : stop.1.kind = .endOfInput) :
    Reading.text front = source.toList ∧ 1 + newLines before = lineBreaks source.toList + 1 := by
  have hwhole := h.whole
  rw [h.more_eq_nil hk, List.append_nil] at hwhole
  have hfront : Reading.text front = source.toList := by
    rw [← hwhole]
    exact Reading.flatMap_chars_ofText names source
  have hlines := h.lineBreaks_front
  rw [hfront, newLines_singleton, if_neg (by simp [hk])] at hlines
  exact ⟨hfront, by omega⟩

/-- The readings up to the end of the row take the lines of the text up to that one. -/
theorem firstLines (h : InRow (Reading.ofText names source) front line more before row s) :
    FirstLines (1 + newLines before) (Reading.text front) source.toList := by
  obtain ⟨body, stop, rfl⟩ := h.exists_stop
  rcases stop.kind_eq with hk | hk
  · exact (h.takesLines hk).firstLines h.whole
  · obtain ⟨hfront, hlines⟩ := h.text_front_of_endOfInput hk
    rw [hfront, hlines]
    exact .all _

theorem exists_hasRead (h : InRow (Reading.ofText names source) front line more before row s) :
    ∃ w, w <+: Reading.text front ∧ s.HasRead names source w := by
  obtain ⟨done, hdone⟩ := h.suffix
  refine ⟨Reading.text done, ?_, done, ?_, rfl⟩
  · rw [hdone, Reading.text_append]
    exact List.prefix_append _ _
  · rw [h.whole, h.unread, hdone, List.append_assoc]

end InRow

/-! ### Statements -/

/-- What a statement on the line `k` comes to, when the text up to the end of this line is `u`. -/
inductive Stays (names : NameGrammar) (source : String) (k : Nat) (u : List Char) :
    EStateM.Result Stop Workspace Outlook → Prop where
  /-- The script stands behind the line break, and nothing more was looked at. -/
  | passes {r : Outlook} {t : Script} {b : Bindings} (hl : t.lookahead = []) (hu : Ended u)
      (hr : t.HasRead names source u) : Stays names source k u (.ok r ⟨t, b⟩)
  /-- The script stands at the end of the input, and only that was looked at. -/
  | ends {r : Outlook} {t : Script} {b : Bindings} {stop : Token} (hl : t.lookahead = [stop])
      (hk : stop.kind = .endOfInput) (hu : u = source.toList) (hr : t.unread = []) :
      Stays names source k u (.ok r ⟨t, b⟩)
  /-- The statement fails on its line, on which the tokens are that were looked at. -/
  | fails {d : Diagnostic} {t : Script} {b : Bindings} {w : List Char}
      (hd : d.span.start.line = k) (hl : t.lookahead.length ≤ 2)
      (ht : ∀ tok ∈ t.lookahead, tok.span.start.line = k) (hw : w <+: u)
      (hr : t.HasRead names source w) : Stays names source k u (.error (.fatal d) ⟨t, b⟩)

variable {names : NameGrammar} {source : String} {s t : Script} {front line more : List Reading}
variable {before row body : List Token} {stop : LineEnd} {m : List Move}

/-- Taking the row up to its end: the script stands behind the line break or at the end of the
input. -/
theorem InRow.lookahead_past
    (h : InRow (Reading.ofText names source) front line more before (body ++ [stop.1]) s)
    (hs : s.Sound) (hm : AllLegal (body ++ [stop.1]) m) (ht : taken m = body ++ taken stop.moves)
    (hlook : stop.1.kind = .endOfInput → (s.acts m).lookahead ≠ []) :
    stop.1.kind = .newLine ∧ (s.acts m).lookahead = [] ∧ (s.acts m).unread = more ∨
    stop.1.kind = .endOfInput ∧ (s.acts m).lookahead = [stop.1] ∧ (s.acts m).unread = [] := by
  rcases h.past hs hm ht with ⟨hk, hl, hu, -⟩ | ⟨hk, line', hr⟩
  · exact .inl ⟨hk, hl, hu⟩
  · exact .inr ⟨hk, hr.eq_of_endOfInput hk (hlook hk)⟩

/-- Evaluating a line goes past it, and no further. -/
theorem InRow.lookahead_line (scope : Scope) {l : Line}
    (h : InRow (Reading.ofText names source) front line more before l.tokens s) (hs : s.Sound)
    (hl : l.height ≤ maxNesting) :
    l.stop.1.kind = .newLine ∧ (s.acts (l.moves scope)).lookahead = [] ∧
      (s.acts (l.moves scope)).unread = more ∨
    l.stop.1.kind = .endOfInput ∧ (s.acts (l.moves scope)).lookahead = [l.stop.1] ∧
      (s.acts (l.moves scope)).unread = [] := by
  have hend := l.lookahead_ne_nil scope hl hs h.ahead_eq
  have hm := l.allLegal_moves scope hl
  rw [l.tokens_eq_body] at h hm
  exact h.lookahead_past hs hm (by rw [l.taken_moves, l.takes_eq_body]) hend

/-- A statement looks at nothing behind its line. -/
theorem InRow.stays (h : InRow (Reading.ofText names source) front line more before row s)
    (hs : s.Sound) (hl : s.lookahead.length ≤ 2) (standIn : Span → Number) (b : Bindings) :
    Stays names source (1 + newLines before) (Reading.text front)
      (Work.statement standIn ⟨s, b⟩) := by
  rcases hs.statement_cases ⟨b, standIn⟩ h.ahead_eq h.isRow with
    ⟨l, hheight, rfl, t, ht, p, -⟩ | ⟨x, hx, rfl, t, ht, p⟩
  · obtain rfl := p.acts
    rw [Work.statement_ok ht]
    -- the line ends with its line break, or with the end of the input
    rcases h.lookahead_line ⟨b, standIn⟩ hs hheight with ⟨hk, hlook, hu⟩ | ⟨hk, hlook, hu⟩
    · rw [l.tokens_eq_body] at h
      obtain ⟨done, r, hfront, hr⟩ := h.exists_last
      have hwhole : Reading.ofText names source = done ++ r :: more := by
        rw [h.whole, hfront, List.append_assoc]
        rfl
      obtain ⟨left, -, -, -, hleft, hended, -⟩ := Reader.exists_of_ofText_eq hwhole hr hk
      rw [← hfront] at hleft
      exact .passes hlook (hleft ▸ hended) ⟨front, by rw [hu, h.whole], rfl⟩
    · rw [l.tokens_eq_body] at h
      exact .ends hlook hk (h.text_front_of_endOfInput hk).1 hu
  · obtain rfl := p.acts
    rw [Work.statement_error.mpr ht]
    obtain ⟨line', hr⟩ := h.acts_slip ⟨b, standIn⟩ hs hx
    have hk : 1 + newLines (before ++ x.before) = 1 + newLines before := by rw [h.newLines_slip]
    obtain ⟨w, hw, hread⟩ := hr.exists_hasRead
    refine .fails ?_ (Script.length_lookahead_acts (x.near_moves ⟨b, standIn⟩) hl) (fun tok htok => ?_) hw
      hread
    · rw [hx.span_diagnostic, hr.line_eq, hk]
    · rw [hr.line_of_mem_lookahead htok, hk]

end LineCalc
