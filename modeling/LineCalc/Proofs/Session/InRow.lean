import LineCalc.Proofs.Reading.Numbered
import LineCalc.Proofs.Sentences
import LineCalc.Proofs.Session.Extend

/-!
# Inside a row

A statement reads no further than the end of its row, and neither does skipping what is left of a
row. So the readings of a text always fall apart at the end of the row at hand: `InRow` tells what of
them was read and what of the row is still ahead. `InRow.acts` goes on inside the row, and
`InRow.past` to its end.
-/

namespace LineCalc

open Grammar Move

namespace Grammar

/-- How a line ends. -/
def Line.stop : Line → LineEnd
  | blank stop => stop
  | full _ stop => stop

/-- The tokens of a line in front of its end. -/
def Line.body : Line → List Token
  | blank _ => []
  | full c _ => c.tokens

theorem Line.tokens_eq_body (l : Line) : l.tokens = l.body ++ [l.stop.1] := by
  cases l <;> rfl

theorem Line.takes_eq_body (l : Line) : l.takes = l.body ++ taken l.stop.moves := by
  cases l <;> rfl

theorem Line.kind_stop_of_result {scope : Scope} {l : Line} (h : l.result scope = none) :
    l.stop.1.kind = .endOfInput := by
  cases l with
  | full c stop => cases h
  | blank stop =>
    rcases stop.kind_eq with hk | hk
    · rw [result, if_pos hk] at h
      cases h
    · exact hk

end Grammar

variable {s s' : Script} {m : List Move} {rs front line more : List Reading}
variable {before row rest post body : List Token} {stop : LineEnd}

/-! ### Moves that stay inside a row -/

/-- Moves that do not reach past some tokens do not reach past more of them. -/
theorem Move.AllLegal.append_right (h : AllLegal row m) (rest : List Token) :
    AllLegal (row ++ rest) m := by
  induction m generalizing row with
  | nil => trivial
  | cons x m ih =>
    obtain ⟨hx, hm⟩ := h
    cases x with
    | look n =>
      refine ⟨?_, ih hm⟩
      change n < (row ++ rest).length
      change n < row.length at hx
      rw [List.length_append]
      omega
    | take t =>
      obtain ⟨hh, hk⟩ := hx
      obtain ⟨row, rfl⟩ := List.head?_eq_some_iff.mp hh
      exact ⟨⟨rfl, hk⟩, ih hm⟩
    | report d => exact ⟨hx, ih hm⟩
    | _ => exact ⟨trivial, ih hm⟩

namespace Grammar

/-- To read a line no more is looked at than its tokens. -/
theorem Line.allLegal_moves (scope : Scope) (l : Line) (hl : l.height ≤ maxNesting) :
    AllLegal l.tokens (l.moves scope) := by
  have ha : (Script.ofTokens l.tokens).ahead = l.tokens ++ [] := by
    rw [Script.ahead_ofTokens, List.append_nil]
  have p := l.progress scope hl ha (Script.room_ofTokens _)
  have h := p.legal
  rwa [Script.ahead_ofTokens] at h

theorem Slip.allLegal_moves (scope : Scope) (x : Slip) (hx : x.Fits) :
    AllLegal x.tokens (x.moves scope) := by
  have ha : (Script.ofTokens x.tokens).ahead = x.tokens ++ [] := by
    rw [Script.ahead_ofTokens, List.append_nil]
  have p := x.progress scope hx ha (Script.room_ofTokens _)
  have h := p.legal
  rwa [Script.ahead_ofTokens] at h

theorem allLegal_skipMoves (stop : LineEnd) (hb : ∀ t ∈ body, t.kind.endsLine = false) :
    AllLegal (body ++ [stop.1]) (Feed.skipMoves body stop) := by
  have ha : (Script.ofTokens (body ++ [stop.1])).ahead = body ++ stop.1 :: [] :=
    Script.ahead_ofTokens _
  obtain ⟨t, -, p⟩ := Feed.skipLine_eq stop ha hb (Nat.lt_succ_self _)
  have h := p.legal
  rwa [Script.ahead_ofTokens] at h

theorem Slip.Fits.span_diagnostic {x : Slip} (hx : x.Fits) : x.diagnostic.span = x.token.span := by
  rcases hx.diagnostic_eq with hd | hd
  · rw [hd]
    rfl
  · rw [hd]
    rfl

theorem IsRow.body_inside (h : IsRow (body ++ [stop.1])) : ∀ t ∈ body, t.kind.endsLine = false := by
  obtain ⟨body', stop', he, -, hb⟩ := h
  obtain ⟨rfl, -⟩ := List.append_inj' he rfl
  exact hb

/-- A row has one line break at most, at its end. -/
theorem IsRow.newLines_body {t : Token} (h : IsRow (body ++ t :: rest)) : newLines body = 0 := by
  rw [newLines, List.countP_eq_zero]
  intro u hu hk
  obtain ⟨front, back, rfl⟩ := List.append_of_mem hu
  rw [List.append_assoc, List.cons_append] at h
  have hnil := h.eq_nil (by rw [of_decide_eq_true hk]; rfl)
  simp at hnil

theorem Slip.newLines_before {x : Slip} (h : IsRow x.tokens) : newLines x.before = 0 := by
  rw [x.tokens_eq] at h
  exact h.newLines_body

end Grammar

theorem Reading.eq_nil_of_tokens_eq_nil {done init : List Reading} {r : Reading} {t : Token}
    (h : done ++ line = init ++ [r]) (hr : r.item = .ok t) (ht : Reading.tokens line = []) :
    line = [] := by
  rcases List.eq_nil_or_concat line with hnil | ⟨left, r', rfl⟩
  · exact hnil
  · rw [List.concat_eq_append, ← List.append_assoc] at h
    obtain ⟨-, hrr⟩ := List.append_inj' h rfl
    obtain rfl := List.singleton_inj.mp hrr
    have hmem : t ∈ Reading.tokens (left.concat r') := Reading.mem_tokens.mpr ⟨r', by simp, hr⟩
    rw [ht] at hmem
    cases hmem

/-- Only the end of the input is left. -/
def Script.AtEnd (s : Script) : Prop := ∃ stop, s.ahead = [stop]

/-! ### Standing in a row -/

/-- A script stands in a row of the readings `rs`. The row ends with the last one of `front`, behind
which are `more`. Of the readings in front, `line` are still to be read. The tokens `row` are still
ahead, and the tokens `before` were taken. -/
structure InRow (rs front line more : List Reading) (before row : List Token) (s : Script) :
    Prop where
  whole : rs = front ++ more
  unread : s.unread = line ++ more
  suffix : ∃ done, front = done ++ line
  isRow : IsRow row
  ahead : s.lookahead ++ Reading.tokens line = row
  tokens : Reading.tokens front = before ++ row
  /-- The last reading in front is a token. -/
  last : ∃ done r t, front = done ++ [r] ∧ r.item = .ok t

namespace InRow

/-- A script that has looked at nothing yet stands in front of a row. -/
theorem exists_of_lookahead_eq_nil (hs : s.Sound) (hl : s.lookahead = []) (done : List Reading) :
    ∃ line more row, InRow (done ++ s.unread) (done ++ line) line more (Reading.tokens done) row s := by
  have ha : s.ahead = Reading.tokens s.unread := by
    rw [Script.ahead, hl, List.nil_append]
  obtain ⟨row, rest, hrow, hr⟩ := hs.exists_row
  obtain ⟨body, stop, rfl, hstop, hb⟩ := hr
  have ht : Reading.tokens s.unread = body ++ stop :: rest := by
    rw [← ha, hrow, List.append_assoc]
    rfl
  -- the row is read up to the reading of its last token
  obtain ⟨line, r, more, hu, hi, hline, -⟩ := Reading.exists_of_tokens_eq ht
  have htok : Reading.tokens (line ++ [r]) = body ++ [stop] := by
    obtain ⟨chunks, item⟩ := r
    obtain rfl : item = .ok stop := hi
    rw [Reading.tokens_append, hline, Reading.tokens_ok, Reading.tokens_nil]
  refine ⟨line ++ [r], more, body ++ [stop], ?_, ?_, ⟨done, rfl⟩, ⟨body, stop, rfl, hstop, hb⟩, ?_, ?_,
    ⟨done ++ line, r, stop, ?_, hi⟩⟩
  · rw [hu]
    simp
  · rw [hu]
    simp
  · rw [hl, htok, List.nil_append]
  · rw [Reading.tokens_append, htok]
  · rw [List.append_assoc]

theorem congr (h : InRow rs front line more before row s) (hl : s'.lookahead = s.lookahead)
    (hu : s'.unread = s.unread) : InRow rs front line more before row s' :=
  { h with
    unread := hu.trans h.unread
    ahead := by rw [hl, h.ahead] }

theorem exists_stop (h : InRow rs front line more before row s) :
    ∃ body, ∃ stop : LineEnd, row = body ++ [stop.1] := by
  obtain ⟨body, stop, he, hstop, -⟩ := h.isRow
  exact ⟨body, ⟨stop, hstop⟩, he⟩

theorem ahead_eq (h : InRow rs front line more before row s) :
    s.ahead = row ++ Reading.tokens more := by
  rw [Script.ahead, h.unread, Reading.tokens_append, ← List.append_assoc, h.ahead]

theorem ahead_eq_body {body : List Token} {stop : LineEnd}
    (h : InRow rs front line more before (body ++ [stop.1]) s) :
    s.ahead = body ++ stop.1 :: Reading.tokens more := by
  rw [h.ahead_eq, List.append_assoc]
  rfl

theorem eq_extend (h : InRow rs front line more before row s) :
    s = { s with unread := line }.extend more s.size := by
  show s = { s with unread := line ++ more }
  rw [← h.unread]

theorem ahead_line (h : InRow rs front line more before row s) :
    { s with unread := line }.ahead = row := h.ahead

/-- Moves that stay inside the row do not touch what stands behind. -/
theorem acts_eq (h : InRow rs front line more before row s) (hm : AllLegal row m) :
    s.acts m = ({ s with unread := line }.acts m).extend more s.size ∧
      Progress { s with unread := line } m ({ s with unread := line }.acts m) := by
  have hm : AllLegal { s with unread := line }.ahead m := h.ahead_line.symm ▸ hm
  constructor
  · rw [← Script.acts_extend hm, ← h.eq_extend]
  · exact Script.progress_acts hm

theorem progress (h : InRow rs front line more before row s) (hm : AllLegal row m) :
    Progress s m (s.acts m) := by
  apply Script.progress_acts
  rw [h.ahead_eq]
  exact hm.append_right _

theorem lexical_line (h : InRow rs front line more before row s) (hs : s.Lexical) :
    { s with unread := line }.Lexical := by
  intro r hr
  apply hs r
  rw [h.unread]
  exact List.mem_append_left _ hr

theorem acts (h : InRow rs front line more before row s) (hs : s.Lexical) (hm : AllLegal row m)
    (hp : row = taken m ++ post) (hpost : post ≠ []) :
    ∃ line', InRow rs front line' more (before ++ taken m) post (s.acts m) := by
  obtain ⟨he, p⟩ := h.acts_eq hm
  obtain ⟨read, new, hu, -⟩ := p.queue (h.lexical_line hs)
  have ha : ({ s with unread := line }.acts m).ahead = post := p.ahead_eq (h.ahead_line.trans hp)
  obtain ⟨done, hdone⟩ := h.suffix
  generalize { s with unread := line }.acts m = t at he hu ha
  change line = read ++ t.unread at hu
  refine ⟨t.unread, h.whole, ?_, ⟨done ++ read, ?_⟩, ?_, ?_, ?_, h.last⟩
  · rw [he]
    rfl
  · rw [hdone, hu, List.append_assoc]
  · exact (hp ▸ h.isRow).of_append hpost
  · rw [he]
    exact ha
  · rw [h.tokens, hp, List.append_assoc]

theorem acts_all (h : InRow rs front line more before row s) (hs : s.Lexical) (hm : AllLegal row m)
    (ht : taken m = row) : (s.acts m).lookahead = [] ∧ (s.acts m).unread = more := by
  obtain ⟨he, p⟩ := h.acts_eq hm
  obtain ⟨read, new, hu, -⟩ := p.queue (h.lexical_line hs)
  have hn : row = taken m ++ [] := by rw [ht, List.append_nil]
  have ha : ({ s with unread := line }.acts m).ahead = [] := p.ahead_eq (h.ahead_line.trans hn)
  generalize { s with unread := line }.acts m = t at he hu ha
  change line = read ++ t.unread at hu
  obtain ⟨hl, htok⟩ := List.append_eq_nil_iff.mp ha
  have hnil : t.unread = [] := by
    obtain ⟨done, hdone⟩ := h.suffix
    obtain ⟨init, r, tok, hinit, hr⟩ := h.last
    have hlast : (done ++ read) ++ t.unread = init ++ [r] := by
      rw [← hinit, hdone, hu, List.append_assoc]
    exact Reading.eq_nil_of_tokens_eq_nil hlast hr htok
  rw [he]
  refine ⟨hl, ?_⟩
  show t.unread ++ more = more
  rw [hnil, List.nil_append]

/-- Taking the row up to its end: behind a line break stands the next row, and the end of the input
is left as a row of its own. -/
theorem past (h : InRow rs front line more before (body ++ [stop.1]) s) (hs : s.Sound)
    (hm : AllLegal (body ++ [stop.1]) m) (ht : taken m = body ++ taken stop.moves) :
    (stop.1.kind = .newLine ∧ (s.acts m).lookahead = [] ∧ (s.acts m).unread = more ∧
      ∃ line' more' row', InRow rs (front ++ line') line' more' (before ++ (body ++ [stop.1])) row'
        (s.acts m)) ∨
    stop.1.kind = .endOfInput ∧
      ∃ line', InRow rs front line' more (before ++ body) [stop.1] (s.acts m) := by
  rcases stop.kind_eq with hk | hk
  · left
    rw [LineEnd.taken_moves_of_newLine hk] at ht
    obtain ⟨hl, hu⟩ := h.acts_all hs.lexical hm ht
    have hs' : (s.acts m).Sound := hs.progress (h.progress hm)
    obtain ⟨line', more', row', hr⟩ := exists_of_lookahead_eq_nil hs' hl front
    rw [hu, ← h.whole, h.tokens] at hr
    exact ⟨hk, hl, hu, line', more', row', hr⟩
  · right
    rw [LineEnd.taken_moves_of_endOfInput hk, List.append_nil] at ht
    obtain ⟨line', hr⟩ := h.acts hs.lexical hm (ht ▸ rfl) (List.cons_ne_nil stop.1 [])
    rw [ht] at hr
    exact ⟨hk, line', hr⟩

/-- The last token of the row is the last one in front. -/
theorem exists_last (h : InRow rs front line more before (body ++ [stop.1]) s) :
    ∃ done r, front = done ++ [r] ∧ r.item = .ok stop.1 := by
  obtain ⟨done, r, t, hfront, hr⟩ := h.last
  refine ⟨done, r, hfront, ?_⟩
  have ht := h.tokens
  obtain ⟨chunks, item⟩ := r
  obtain rfl : item = .ok t := hr
  rw [hfront, Reading.tokens_append, Reading.tokens_ok, Reading.tokens_nil, ← List.append_assoc] at ht
  obtain ⟨-, hts⟩ := List.append_inj' ht rfl
  rw [List.singleton_inj.mp hts]

theorem item_of_getLast? {r : Reading} (h : InRow rs front line more before (body ++ [stop.1]) s)
    (hr : line.getLast? = some r) : r.item = .ok stop.1 := by
  obtain ⟨done, r', hfront, hr'⟩ := h.exists_last
  obtain ⟨done', hsuffix⟩ := h.suffix
  have hget : front.getLast? = some r := by
    rw [hsuffix, List.getLast?_append, hr]
    rfl
  rw [hfront, List.getLast?_concat] at hget
  obtain rfl := Option.some.inj hget
  exact hr'

/-- Behind the end of the input there is nothing. -/
theorem more_eq_nil {names : NameGrammar} {source : String}
    (h : InRow (Reading.ofText names source) front line more before (body ++ [stop.1]) s)
    (hk : stop.1.kind = .endOfInput) : more = [] := by
  obtain ⟨rs, chunks, place, ho, hp⟩ := Reading.exists_of_ofText names source
  obtain ⟨done, r, rfl, hr⟩ := h.exists_last
  rcases List.eq_nil_or_concat more with hnil | ⟨more', r', rfl⟩
  · exact hnil
  · -- the end of the input would stand among the readings in front of it
    have hw := ho.symm.trans h.whole
    rw [List.concat_eq_append, ← List.append_assoc] at hw
    obtain ⟨rfl, -⟩ := List.append_inj' hw rfl
    have hproper := hp r (by simp)
    rw [Reading.Proper, hr] at hproper
    exact absurd hk hproper.2

/-- Where nothing was looked at, the whole row is still to be read. -/
theorem tokens_line (h : InRow rs front line more before row s) (hl : s.lookahead = []) :
    Reading.tokens line = row := by
  rw [← h.ahead, hl, List.nil_append]

/-- When the last token of the row was looked at, there is nothing more to read of it. -/
theorem line_eq_nil {t : Token} (h : InRow rs front line more before [t] s)
    (hl : s.lookahead ≠ []) : line = [] := by
  have ha := h.ahead
  obtain ⟨done, hdone⟩ := h.suffix
  obtain ⟨init, r, tok, hinit, hr⟩ := h.last
  obtain ⟨a, l, hla⟩ := List.exists_cons_of_ne_nil hl
  rw [hla] at ha
  obtain ⟨-, hn⟩ := List.cons.inj ha
  exact Reading.eq_nil_of_tokens_eq_nil (hdone.symm.trans hinit) hr (List.append_eq_nil_iff.mp hn).2

theorem atEnd {names : NameGrammar} {source : String}
    (h : InRow (Reading.ofText names source) front line more before [stop.1] s)
    (hk : stop.1.kind = .endOfInput) : s.AtEnd := by
  have hlast : InRow _ front line more before ([] ++ [stop.1]) s := h
  have hahead := h.ahead_eq
  rw [hlast.more_eq_nil hk] at hahead
  exact ⟨stop.1, hahead⟩

theorem eq_of_endOfInput {names : NameGrammar} {source : String}
    (h : InRow (Reading.ofText names source) front line more before [stop.1] s)
    (hk : stop.1.kind = .endOfInput) (hl : s.lookahead ≠ []) :
    s.lookahead = [stop.1] ∧ s.unread = [] := by
  have hline := h.line_eq_nil hl
  have hrow : InRow (Reading.ofText names source) front line more before ([] ++ [stop.1]) s := h
  have hmore : more = [] := hrow.more_eq_nil hk
  have ha := h.ahead
  rw [hline, Reading.tokens_nil, List.append_nil] at ha
  exact ⟨ha, by rw [h.unread, hline, hmore]; rfl⟩

/-- The token that a script stands in front of is on the line that the tokens taken tell. -/
theorem line_eq {names : NameGrammar} {source : String} {t : Token}
    (h : InRow (Reading.ofText names source) front line more before (t :: rest) s) :
    t.span.start.line = 1 + newLines before :=
  Reading.line_of_tokens_eq h.whole h.tokens

theorem lineBreaks_front {names : NameGrammar} {source : String}
    (h : InRow (Reading.ofText names source) front line more before (body ++ [stop.1]) s) :
    lineBreaks (Reading.text front) = newLines before + newLines [stop.1] := by
  rw [Reading.lineBreaks_text h.whole, h.tokens, newLines_append, newLines_append,
    h.isRow.newLines_body, Nat.zero_add]

theorem acts_line (scope : Scope) {l : Line} (h : InRow rs front line more before l.tokens s)
    (hs : s.Sound) (hl : l.height ≤ maxNesting) :
    (l.stop.1.kind = .newLine ∧ ∃ line' more' row',
      InRow rs (front ++ line') line' more' (before ++ l.tokens) row' (s.acts (l.moves scope))) ∨
    l.stop.1.kind = .endOfInput ∧
      ∃ line', InRow rs front line' more (before ++ l.body) [l.stop.1] (s.acts (l.moves scope)) := by
  have hm := l.allLegal_moves scope hl
  rw [l.tokens_eq_body] at h hm ⊢
  rcases h.past hs hm (by rw [Line.taken_moves, l.takes_eq_body]) with ⟨hk, -, -, hr⟩ | hr
  · exact .inl ⟨hk, hr⟩
  · exact .inr hr

theorem acts_slip (scope : Scope) {x : Slip} (h : InRow rs front line more before x.tokens s)
    (hs : s.Sound) (hx : x.Fits) :
    ∃ line', InRow rs front line' more (before ++ x.before) (x.token :: x.after)
      (s.acts (x.moves scope)) := by
  have hp : x.tokens = taken (x.moves scope) ++ x.token :: x.after := by
    rw [x.taken_moves, x.tokens_eq]
  have hr := h.acts hs.lexical (x.allLegal_moves scope hx) hp (List.cons_ne_nil _ _)
  rwa [x.taken_moves] at hr

/-- A slip stops on the line of its row. -/
theorem newLines_slip {x : Slip} (h : InRow rs front line more before x.tokens s) :
    newLines (before ++ x.before) = newLines before := by
  rw [newLines_append, Slip.newLines_before h.isRow, Nat.add_zero]

end InRow

end LineCalc
