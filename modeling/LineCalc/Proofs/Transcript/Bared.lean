import LineCalc.Proofs.Transcript.OneRow

/-!
# Rows without their comments

A comment can only stand in front of the end of a row. To evaluate the row without it comes to the same:
up to the comment the same moves are made, and where the comment would be taken, or is out of place, the
end of the row is. So the two scripts are kept side by side, with the end of the one in the place of the
comment of the other.
-/

namespace LineCalc

open Grammar Move Reading

variable {s s' : Script} {m : List Move}
variable {front back back' : List Reading} {toks : List Token} {stop : Token}

/-! ### Scripts side by side -/

/-- The token, or `stop` in the place of a comment. -/
def Token.bared (stop t : Token) : Token := if t.kind = .comment then stop else t

/-- What becomes of the tokens does not matter to the diagnostics. -/
theorem Reading.diagnostics_of_items {f : Token → Token} {rs rs' : List Reading}
    (h : rs'.map (·.item) = rs.map fun r => r.item.map f) : diagnostics rs' = diagnostics rs := by
  induction rs generalizing rs' with
  | nil =>
    obtain rfl : rs' = [] := List.map_eq_nil_iff.mp h
    rfl
  | cons r rs ih =>
    obtain ⟨r', rest, rfl, hitem, hrest⟩ := List.map_eq_cons_iff.mp h
    have hrest := ih hrest
    obtain ⟨chunks, item⟩ := r
    obtain ⟨chunks', item'⟩ := r'
    obtain rfl : item' = item.map f := hitem
    cases item with
    | ok t => exact hrest
    | error d => exact congrArg (d :: ·) hrest

/-- `s'` is `s` with the token `stop` in the place of a comment. The counts are left out. -/
structure Bared (stop : Token) (s s' : Script) : Prop where
  unread : s'.unread.map (·.item) = s.unread.map fun r => r.item.map stop.bared
  lookahead : s'.lookahead = s.lookahead.map stop.bared
  queue : s'.queue = s.queue

namespace Bared

theorem ofReadings {rs rs' : List Reading}
    (h : rs'.map (·.item) = rs.map fun r => r.item.map stop.bared) :
    Bared stop (.ofReadings rs) (.ofReadings rs') := ⟨h, rfl, rfl⟩

theorem report (h : Bared stop s s') (d : Diagnostic) : Bared stop (s.report d) (s'.report d) :=
  { h with
    queue := by
      show s'.queue ++ _ = s.queue ++ _
      rw [h.queue] }

/-- What is read on both sides is the same, or the comment and the token in its place. -/
theorem absorb {r r' : Reading} {rs rs' : List Reading}
    (h : Bared stop { s with unread := r :: rs } { s' with unread := r' :: rs' }) :
    Bared stop { s.absorb r with unread := rs } { s'.absorb r' with unread := rs' } := by
  obtain ⟨hitem, hrest⟩ := List.cons.inj h.unread
  obtain ⟨chunks, item⟩ := r
  obtain ⟨chunks', item'⟩ := r'
  obtain rfl : item' = item.map stop.bared := hitem
  cases item with
  | ok tok =>
    refine { h with unread := hrest, lookahead := ?_ }
    have hl : s'.lookahead = s.lookahead.map stop.bared := h.lookahead
    show s'.lookahead ++ [stop.bared tok] = (s.lookahead ++ [tok]).map stop.bared
    rw [List.map_append, ← hl]
    rfl
  | error d => exact { h.report d with unread := hrest }

theorem fillFrom {n : Nat} {rs rs' : List Reading}
    (h : Bared stop { s with unread := rs } { s' with unread := rs' }) :
    Option.Rel (Bared stop) (s.fillFrom n rs) (s'.fillFrom n rs') := by
  have hlength : s'.lookahead.length = s.lookahead.length := by
    rw [show s'.lookahead = _ from h.lookahead, List.length_map]
  -- both scripts read on one item at a time, since they have looked at as many tokens
  induction rs generalizing s s' rs' with
  | nil =>
    obtain rfl : rs' = [] := List.map_eq_nil_iff.mp h.unread
    have hl : s'.lookahead = s.lookahead.map _ := h.lookahead
    rw [Script.fillFrom, Script.fillFrom, hl, List.getLast?_map, List.length_map]
    cases s.lookahead.getLast? with
    | none => exact .none
    | some last => exact .some { h with lookahead := by simp }
  | cons r rs ih =>
    obtain ⟨r', rs', rfl⟩ : ∃ r' rs'', rs' = r' :: rs'' := by
      refine List.exists_cons_of_ne_nil ?_
      rintro rfl
      cases h.unread
    rw [Script.fillFrom, Script.fillFrom, hlength]
    by_cases hn : n < s.lookahead.length
    · rw [if_pos hn, if_pos hn]
      exact .some h
    · rw [if_neg hn, if_neg hn]
      have hr := h.absorb
      refine ih hr ?_
      rw [show (s'.absorb r').lookahead = _ from hr.lookahead, List.length_map]

theorem fill (h : Bared stop s s') (n : Nat) :
    Bared stop ((s.fillFrom n s.unread).getD s) ((s'.fillFrom n s'.unread).getD s') := by
  have hrel : Option.Rel (Bared stop) (s.fillFrom n s.unread) (s'.fillFrom n s'.unread) := fillFrom h
  generalize s.fillFrom n s.unread = o, s'.fillFrom n s'.unread = o' at hrel
  cases hrel with
  | none => exact h
  | some ht => exact ht

theorem act (h : Bared stop s s') (x : Move) : Bared stop (s.act x) (s'.act x) := by
  cases x with
  | look n => exact h.fill n
  | take tok =>
    have hf := h.fill 0
    refine { hf with lookahead := ?_ }
    show (if _ then _ else _) = List.map stop.bared (if _ then _ else _)
    rw [hf.lookahead]
    split
    · rfl
    · exact List.map_tail.symm
  | report d => exact h.report d
  | print value =>
    refine { h with queue := ?_ }
    show s'.queue ++ _ = s.queue ++ _
    rw [h.queue]
  | blame | forgive | note | enter | leave | clear | count => exact { h with }

theorem acts (h : Bared stop s s') (m : List Move) : Bared stop (s.acts m) (s'.acts m) := by
  induction m generalizing s s' with
  | nil => exact h
  | cons x m ih => exact ih (h.act x)

theorem diagnostics_unread (h : Bared stop s s') :
    Reading.diagnostics s'.unread = Reading.diagnostics s.unread :=
  Reading.diagnostics_of_items h.unread

end Bared

/-- Which token is the last one does not matter to moves that do not take it. -/
theorem Move.AllLegal.congr_last {t t' : Token} (h : AllLegal (toks ++ [t]) m)
    (hm : taken m <+: toks) : AllLegal (toks ++ [t']) m := by
  induction m generalizing toks with
  | nil => trivial
  | cons x m ih =>
    obtain ⟨hx, h⟩ := h
    cases x with
    | take tok =>
      obtain ⟨rest, rfl⟩ := hm
      exact ⟨⟨rfl, hx.2⟩, ih h (List.prefix_append _ rest)⟩
    | look n =>
      refine ⟨?_, ih h hm⟩
      change n < (toks ++ [t]).length at hx
      change n < (toks ++ [t']).length
      rwa [List.length_append] at hx ⊢
    | report d => exact ⟨hx, ih h hm⟩
    | _ => exact ⟨trivial, ih h hm⟩

/-! ### A comment in the place of the end of a row -/

namespace Grammar

variable {r : Remark} {stop : LineEnd} {lead : Lead} {c : Content} {rest : List Token}

/-- What is wanted is neither the end of a row nor a comment, and no token is looked at behind them. -/
theorem Want.remark (w : Want) (scope : Scope) (r : Remark) (stop : LineEnd) {levels : Nat}
    {d : Diagnostic} (h : w.Blames levels stop.1 d) : d = .unexpected stop.1 ∧
      w.Blames levels r.token (.unexpected r.token) ∧
      w.moves scope r.token = w.moves scope stop.1 := by
  have hr := r.isComment
  cases w with
  | operand =>
    have hplain : stop.1.kind.opensLevel = false ∧ ¬(stop.1.kind = .func ∨ stop.1.kind = .leftParen) := by
      rcases stop.kind_eq with hk | hk <;> rw [hk] <;> decide
    refine ⟨?_, .inr ⟨by rw [hr]; rfl, rfl⟩, ?_⟩
    · rcases h with ⟨hopens, -⟩ | ⟨-, hd⟩
      · rw [hplain.1] at hopens
        cases hopens
      · exact hd
    · rw [moves, moves, if_neg hplain.2, if_neg (by rw [hr]; decide)]
  | bracket f => exact ⟨h.2, ⟨by rw [hr]; decide, rfl⟩, rfl⟩
  | closeCall f opening arg => exact ⟨h.2.2, ⟨by rw [hr]; decide, by rw [hr]; rfl, rfl⟩, rfl⟩
  | close opening inner => exact ⟨h.2.2, ⟨by rw [hr]; decide, by rw [hr]; rfl, rfl⟩, rfl⟩

/-- What shows what a row is stands in front of its end. -/
theorem Lead.ShownBy.remark (h : lead.ShownBy (toks ++ [stop.1]))
    (r : Remark) (rest : List Token) : lead.ShownBy (toks ++ r.token :: rest) := by
  obtain ⟨a, b, more, he, ha, hlead⟩ := h
  cases toks with
  | nil =>
    obtain ⟨rfl, -⟩ := List.cons.inj he
    rw [stop.2] at ha
    cases ha
  | cons a' toks =>
    obtain ⟨rfl, hmore⟩ := List.cons.inj he
    cases toks with
    | cons b' toks =>
      obtain ⟨rfl, -⟩ := List.cons.inj hmore
      exact ⟨a', b', toks ++ r.token :: rest, rfl, ha, hlead⟩
    | nil =>
      refine ⟨a', r.token, rest, rfl, ha, ?_⟩
      cases lead with
      | store m equals => trivial
      | print => exact ⟨hlead.1, fun hk => by simp [r.isComment] at hk⟩

theorem Content.ShownBy.remark (h : c.ShownBy (toks ++ [stop.1])) (r : Remark)
    (rest : List Token) : c.ShownBy (toks ++ r.token :: rest) := by
  cases c with
  | remark r' => trivial
  | expression lead e r? => exact Lead.ShownBy.remark h r rest

/-- The same slip, with other tokens behind the one that does not fit. -/
def Slip.followedBy : Slip → List Token → Slip
  | .stray lead g w t d _, after => .stray lead g w t d after
  | .trailing c t _, after => .trailing c t after

namespace Slip

theorem tokens_followedBy (x : Slip) (after : List Token) :
    (x.followedBy after).tokens = x.before ++ x.token :: after := by
  cases x <;> exact tokens_eq _

theorem moves_followedBy (x : Slip) (after : List Token) (scope : Scope) :
    (x.followedBy after).moves scope = x.moves scope := by
  cases x <;> rfl

theorem diagnostic_followedBy (x : Slip) (after : List Token) :
    (x.followedBy after).diagnostic = x.diagnostic := by
  cases x <;> rfl

/-- A comment behind the token does not change what is wrong. -/
theorem Fits.followedBy_remark {x : Slip} {after : List Token} (hx : x.Fits)
    (ht : x.tokens = toks ++ [stop.1])
    (ht' : (x.followedBy after).tokens = toks ++ r.token :: rest) : (x.followedBy after).Fits := by
  cases x with
  | stray lead g w t d _ =>
    obtain ⟨hheight, hlevels, hblames, hshown⟩ := hx
    exact ⟨hheight, hlevels, hblames, ht' ▸ (ht ▸ hshown).remark r rest⟩
  | trailing c t _ =>
    obtain ⟨hheight, hends, hends', hshown⟩ := hx
    exact ⟨hheight, hends, hends', ht' ▸ (ht ▸ hshown).remark r rest⟩

end Slip

end Grammar

/-! ### Rows side by side -/

/-- What is put out with and without comments, where the lines are further up by `up`: the same values,
and the same problems at the same places; only a comment in the wrong place is called otherwise than the
end of the line or of the input behind it. -/
inductive Output.Uncommented (up : Nat → Nat) : Output → Output → Prop where
  | value (n : Number) : Output.Uncommented up (.value n) (.value n)
  | diagnostic {d d' : Diagnostic} (h : d = d'.down (up d.span.start.line)) :
      Output.Uncommented up (.diagnostic d) (.diagnostic d')
  | comment {d d' : Diagnostic} {text : String}
      (hd : d.problem = .unexpected (.token ("%%" ++ text)))
      (hd' : d'.problem = .unexpected .endOfLine ∨ d'.problem = .unexpected .endOfInput)
      (hs : d.span.start = d'.span.start.down (up d.span.start.line)) :
      Output.Uncommented up (.diagnostic d) (.diagnostic d')

theorem Output.Uncommented.refl (o : Output) : Uncommented (fun _ => 0) o o := by
  cases o with
  | value n => exact .value n
  | diagnostic d => exact .diagnostic rfl

theorem Output.uncommented_refl (os : List Output) :
    List.Forall₂ (Uncommented fun _ => 0) os os := by
  induction os with
  | nil => exact .nil
  | cons o os ih => exact .cons (.refl o) ih

/-- The two scripts have runs that end alike, and put out the same but for comments. -/
def RunAlike (up : Nat → Nat) (keepGoing : Bool) (standIn : Span → Number) (b : Bindings)
    (s s' : Script) : Prop :=
  ∃ os os' c b' t t', Runs keepGoing standIn b s os c b' t ∧ Runs keepGoing standIn b s' os' c b' t' ∧
    List.Forall₂ (Output.Uncommented up) os os'

/-- Two scripts of a row. The first one has a comment in front of its end, the second one has not. -/
structure Stripped (r : Remark) (chunks : List Chunk) (front back back' : List Reading)
    (stop stop' : LineEnd) : Prop where
  row : OneRow (front ++ [⟨chunks, .ok r.token⟩]) stop back
    (.ofReadings (front ++ [⟨chunks, .ok r.token⟩] ++ back))
  bare : OneRow front stop' back' (.ofReadings (front ++ back'))
  plain : ∀ t ∈ tokens front, t.kind ≠ .comment
  lexeme : r.token.lexeme = "%%" ++ r.text
  start : r.token.span.start = stop'.1.span.start

namespace Stripped

variable {r : Remark} {chunks : List Chunk} {stop stop' : LineEnd} {m' : List Move}

/-- Up to the end of the row, that of the second one is in the place of the comment. -/
theorem bared (h : Stripped r chunks front back back' stop stop') (chunks' : List Chunk) :
    Bared stop'.1 (.ofReadings (front ++ [⟨chunks, .ok r.token⟩]))
      (.ofReadings (front ++ [⟨chunks', .ok stop'.1⟩])) := by
  refine .ofReadings ?_
  rw [List.map_append, List.map_append]
  congr 1
  · refine List.map_congr_left fun r' hr' => ?_
    obtain ⟨taken, item⟩ := r'
    cases item with
    | error d => rfl
    | ok tok =>
      have hne := h.plain tok (Reading.mem_tokens.mpr ⟨_, hr', rfl⟩)
      show Except.ok tok = .ok (stop'.1.bared tok)
      rw [Token.bared, if_neg hne]
  · show [Except.ok stop'.1] = [.ok (stop'.1.bared r.token)]
    rw [Token.bared, if_pos r.isComment]

/-- Up to the comment the same is done. -/
theorem acts (h : Stripped r chunks front back back' stop stop')
    (hm : AllLegal (tokens front ++ [stop'.1]) m) (ht : taken m <+: tokens front) :
    let s := Script.ofReadings (front ++ [⟨chunks, .ok r.token⟩] ++ back)
    let s' := Script.ofReadings (front ++ back')
    (s.acts m).queue = (s'.acts m).queue ∧
      diagnostics (s.acts m).unread = diagnostics (s'.acts m).unread := by
  intro s s'
  obtain ⟨chunks', more, rfl, hmore⟩ := h.bare.closes.exists_cons
  let t := Script.ofReadings (front ++ [⟨chunks, .ok r.token⟩])
  let t' := Script.ofReadings (front ++ [⟨chunks', .ok stop'.1⟩])
  have hacts : Bared stop'.1 (t.acts m) (t'.acts m) := (h.bared chunks').acts m
  -- what stands behind the row is put behind it again: up to there both rows go alike
  have hs : s.acts m = (t.acts m).extend back s.size := by
    have hlegal : AllLegal t.ahead m := by
      show AllLegal (tokens (front ++ [_])) m
      rw [Reading.tokens_append]
      exact hm.congr_last ht
    exact Script.acts_extend hlegal
  have hs' : s'.acts m = (t'.acts m).extend more s'.size := by
    have hsplit : s' = t'.extend more s'.size := by
      show Script.ofReadings (front ++ _ :: more) = t'.extend more (front ++ _ :: more).length
      rw [List.append_cons]
      rfl
    have hlegal : AllLegal t'.ahead m := by
      show AllLegal (tokens (front ++ [_])) m
      rw [Reading.tokens_append]
      exact hm
    rw [hsplit]
    exact Script.acts_extend hlegal
  rw [hs, hs']
  refine ⟨hacts.queue.symm, ?_⟩
  show diagnostics ((t.acts m).unread ++ back) = diagnostics ((t'.acts m).unread ++ more)
  rw [Reading.diagnostics_append, Reading.diagnostics_append, h.row.closes.diagnostics, hmore,
    hacts.diagnostics_unread]

section

variable (keepGoing : Bool) (standIn : Span → Number) (b : Bindings)

theorem runAlike_of_line (h : Stripped r chunks front back back' stop stop') {l l' : Line}
    (hl : l.height ≤ maxNesting) (hl' : l'.height ≤ maxNesting)
    (ht : l.tokens = tokens (front ++ [⟨chunks, .ok r.token⟩]) ++ [stop.1])
    (ht' : l'.tokens = tokens front ++ [stop'.1]) (m n n' : List Move)
    (hm : l.moves ⟨b, standIn⟩ = m ++ .look 0 :: n) (hm' : l'.moves ⟨b, standIn⟩ = m ++ .look 0 :: n')
    (htaken : taken m = tokens front) (houtputs : outputs n = outputs n')
    (hresult : (l.result ⟨b, standIn⟩).getD b = (l'.result ⟨b, standIn⟩).getD b) :
    RunAlike (fun _ => 0) keepGoing standIn b (.ofReadings (front ++ [⟨chunks, .ok r.token⟩] ++ back))
      (.ofReadings (front ++ back')) := by
  obtain ⟨t, hruns⟩ := h.row.runs_line keepGoing standIn b hl ht
  obtain ⟨t', hruns'⟩ := h.bare.runs_line keepGoing standIn b hl' ht'
  have hbehind : diagnostics (⟨chunks, .ok r.token⟩ :: back) = [] := h.row.closes.diagnostics
  have hqueue := h.row.sound.queue_acts_append rfl (List.append_cons ..).symm hbehind
    (hm ▸ h.row.legal_line ⟨b, standIn⟩ hl ht) htaken
  have hqueue' := h.bare.sound.queue_acts_append rfl h.bare.unread h.bare.closes.diagnostics
    (hm' ▸ h.bare.legal_line ⟨b, standIn⟩ hl' ht') htaken
  have hboth : AllLegal (tokens front ++ [stop'.1]) (m ++ [.look 0]) := by
    have hlegal := l'.allLegal_moves ⟨b, standIn⟩ hl'
    rw [ht', hm', List.append_cons m] at hlegal
    exact (allLegal_append.mp hlegal).1
  obtain ⟨hsame, -⟩ := h.acts hboth (by simp [htaken])
  rw [hm, hqueue, houtputs, hsame] at hruns
  rw [hm', hqueue', ← hresult] at hruns'
  exact ⟨_, _, _, _, t, t', hruns, hruns', Output.uncommented_refl _⟩

theorem runAlike_of_slip (h : Stripped r chunks front back back' stop stop') {x x' : Slip}
    (hx : x.Fits) (hx' : x'.Fits) (ht : x.tokens = tokens (front ++ [⟨chunks, .ok r.token⟩]) ++ [stop.1])
    (ht' : x'.tokens = tokens front ++ [stop'.1]) (hm : x.moves ⟨b, standIn⟩ = x'.moves ⟨b, standIn⟩)
    (hd : Output.Uncommented (fun _ => 0) (.diagnostic x.diagnostic) (.diagnostic x'.diagnostic)) :
    RunAlike (fun _ => 0) keepGoing standIn b (.ofReadings (front ++ [⟨chunks, .ok r.token⟩] ++ back))
      (.ofReadings (front ++ back')) := by
  obtain ⟨t, hruns⟩ := h.row.runs_slip keepGoing standIn b hx ht
  obtain ⟨t', hruns'⟩ := h.bare.runs_slip keepGoing standIn b hx' ht'
  have htaken : taken (x'.moves ⟨b, standIn⟩) <+: tokens front := by
    rw [x'.taken_moves]
    rw [x'.tokens_eq] at ht'
    have hlength := congrArg List.length ht'
    simp only [List.length_append, List.length_cons, List.length_nil] at hlength
    refine List.prefix_of_prefix_length_le ⟨_, ht'⟩ (List.prefix_append _ _) ?_
    omega
  obtain ⟨hqueue, hleft⟩ := h.acts (ht' ▸ x'.allLegal_moves ⟨b, standIn⟩ hx') htaken
  rw [hm, hqueue, hleft] at hruns
  exact ⟨_, _, _, _, t, t', hruns, hruns', List.rel_append (Output.uncommented_refl _)
    (.cons hd (Output.uncommented_refl _))⟩

/-- A comment that is out of place is called by its text, and the end of the row by what it is. -/
theorem uncommented_unexpected (h : Stripped r chunks front back back' stop stop') :
    Output.Uncommented (fun _ => 0) (.diagnostic (.unexpected r.token))
      (.diagnostic (.unexpected stop'.1)) := by
  have hr : (Diagnostic.unexpected r.token).problem = .unexpected (.token ("%%" ++ r.text)) := by
    show Problem.unexpected (.ofToken r.token) = _
    rw [Found.ofToken, r.isComment, ← h.lexeme]
  refine .comment hr ?_ h.start
  · show Problem.unexpected (.ofToken stop'.1) = _ ∨ Problem.unexpected (.ofToken stop'.1) = _
    rcases stop'.kind_eq with hk | hk
    · exact .inl (by rw [Found.ofToken, hk])
    · exact .inr (by rw [Found.ofToken, hk])

theorem tokens_row (r : Remark) (chunks : List Chunk) (front : List Reading) (stop : LineEnd) :
    tokens (front ++ [⟨chunks, .ok r.token⟩]) ++ [stop.1] = tokens front ++ [r.token, stop.1] := by
  rw [tokens_append, tokens_ok, tokens_nil, List.append_assoc]
  rfl

/-- Where the second row is empty, the first one has nothing on it but the comment. -/
theorem runAlike_blank (h : Stripped r chunks front back back' stop stop') {last : LineEnd}
    (ht' : (Line.blank last).tokens = tokens front ++ [stop'.1]) :
    RunAlike (fun _ => 0) keepGoing standIn b (.ofReadings (front ++ [⟨chunks, .ok r.token⟩] ++ back))
      (.ofReadings (front ++ back')) := by
  obtain ⟨hfront, -⟩ : [] = tokens front ∧ [last.1] = [stop'.1] := List.append_inj' ht' rfl
  obtain ⟨n', hn', houtputs⟩ : ∃ n', last.moves = .look 0 :: n' ∧ outputs n' = [] := by
    unfold LineEnd.moves
    split
    · exact ⟨_, rfl, rfl⟩
    · exact ⟨_, rfl, rfl⟩
  have hm' : (Line.blank last).moves ⟨b, standIn⟩ = [.clear] ++ .look 0 :: n' := by
    rw [Line.moves, hn', List.singleton_append]
  have hsame : ((Line.blank last).result ⟨b, standIn⟩).getD b = b := by
    rw [Line.result]
    split <;> rfl
  have hrow := tokens_row r chunks front stop
  rw [← hfront] at hrow
  refine h.runAlike_of_line keepGoing standIn b (l := .full (.remark r) stop) (Nat.zero_le _)
    (Nat.zero_le _) hrow.symm ht' _ _ n' rfl hm' hfront ?_ hsame.symm
  simp [houtputs, Content.moves, Content.deedMoves, Content.remark?, Remark.moves,
    Content.verdict, Content.faults, Content.deed]

/-- Where an expression is all that the second row has, the first one has the comment behind it. -/
theorem runAlike_expression (h : Stripped r chunks front back back' stop stop') {lead : Lead}
    {e : Phrase .sum} {last : LineEnd}
    (hl : (Line.full (.expression lead e none) last).height ≤ maxNesting)
    (ht' : (Line.full (.expression lead e none) last).tokens = tokens front ++ [stop'.1]) :
    RunAlike (fun _ => 0) keepGoing standIn b (.ofReadings (front ++ [⟨chunks, .ok r.token⟩] ++ back))
      (.ofReadings (front ++ back')) := by
  obtain ⟨hfront, -⟩ : (Content.expression lead e none).tokens = tokens front ∧
      [last.1] = [stop'.1] := List.append_inj' ht' rfl
  have hfront : lead.tokens ++ e.tokens = tokens front := by
    simpa [Content.tokens, Remark.tokens] using hfront
  have hverdict : (Content.expression lead e (some r)).verdict ⟨b, standIn⟩ =
      (Content.expression lead e none).verdict ⟨b, standIn⟩ := rfl
  refine h.runAlike_of_line keepGoing standIn b (l := .full (.expression lead e (some r)) stop) hl hl
    ?_ ht' (.clear :: .look 0 :: .count :: .look 0 :: .look 1 :: (lead.moves ++ e.moves ⟨b, standIn⟩))
    (.look 0 :: .take r.token :: .note (.comment r.text) ::
      (stop.moves ++ (Content.expression lead e none).verdict ⟨b, standIn⟩))
    (.look 0 :: (last.moves ++ (Content.expression lead e none).verdict ⟨b, standIn⟩)) ?_ ?_ ?_ ?_ rfl
  · rw [tokens_row, ← hfront]
    simp [Line.tokens, Content.tokens, Remark.tokens]
  · simp [Line.moves, Content.moves, Content.deedMoves, Content.remark?, Remark.moves, hverdict]
  · simp [Line.moves, Content.moves, Content.deedMoves, Content.remark?, Remark.moves]
  · simpa using hfront
  · simp

/-- A line is one with the comment as well. -/
theorem runAlike_line (h : Stripped r chunks front back back' stop stop') {l' : Line}
    (hl' : l'.height ≤ maxNesting) (ht' : l'.tokens = tokens front ++ [stop'.1]) :
    RunAlike (fun _ => 0) keepGoing standIn b (.ofReadings (front ++ [⟨chunks, .ok r.token⟩] ++ back))
      (.ofReadings (front ++ back')) := by
  obtain ⟨hbody, -⟩ := List.append_inj' (l'.tokens_eq_body.symm.trans ht') rfl
  have hnone : ∀ r' : Remark, r'.token ∉ l'.body := fun r' hr' =>
    h.plain r'.token (hbody ▸ hr') r'.isComment
  cases l' with
  | blank last => exact h.runAlike_blank keepGoing standIn b ht'
  | full c last =>
    cases c with
    | remark r' => exact absurd List.mem_cons_self (hnone r')
    | expression lead e r? =>
      cases r? with
      | some r' => exact absurd (List.mem_append_right _ List.mem_cons_self) (hnone r')
      | none => exact h.runAlike_expression keepGoing standIn b hl' ht'

/-- Where the end of the second row is out of place, the comment is in the first one. -/
theorem runAlike_stray (h : Stripped r chunks front back back' stop stop') {lead : Lead}
    {g : Gap .sum} {w : Want} {d : Diagnostic} (hx' : (Slip.stray lead g w stop'.1 d []).Fits)
    (ht' : (Slip.stray lead g w stop'.1 d []).tokens = tokens front ++ [stop'.1]) :
    RunAlike (fun _ => 0) keepGoing standIn b (.ofReadings (front ++ [⟨chunks, .ok r.token⟩] ++ back))
      (.ofReadings (front ++ back')) := by
  have hfits := hx'
  obtain ⟨hheight, hlevels, hblames, hshown⟩ := hx'
  obtain ⟨rfl, hblames', hmoves⟩ := w.remark ⟨b, standIn⟩ r stop' hblames
  let x : Slip := .stray lead g w r.token (.unexpected r.token) [stop.1]
  have htokens : x.tokens = tokens front ++ [r.token, stop.1] := by
    obtain ⟨hfront, -⟩ := List.append_inj' ((Slip.tokens_eq _).symm.trans ht') rfl
    rw [x.tokens_eq, ← hfront]
    rfl
  have hx : x.Fits := ⟨hheight, hlevels, hblames', htokens ▸ (ht' ▸ hshown).remark r [stop.1]⟩
  refine h.runAlike_of_slip keepGoing standIn b hx hfits
    (htokens.trans (tokens_row r chunks front stop).symm) ht' ?_ h.uncommented_unexpected
  rw [Slip.moves, Slip.moves, hmoves]

theorem runAlike_slip (h : Stripped r chunks front back back' stop stop') {x' : Slip}
    (hx' : x'.Fits) (ht' : x'.tokens = tokens front ++ [stop'.1]) :
    RunAlike (fun _ => 0) keepGoing standIn b (.ofReadings (front ++ [⟨chunks, .ok r.token⟩] ++ back))
      (.ofReadings (front ++ back')) := by
  rcases List.eq_nil_or_concat x'.after with hafter | ⟨after, last, hafter⟩
  · obtain ⟨-, hstop⟩ : x'.before = tokens front ∧ [x'.token] = [stop'.1] := by
      refine List.append_inj' (Eq.trans ?_ ht') rfl
      rw [x'.tokens_eq, hafter]
    have hstop := List.singleton_inj.mp hstop
    -- what does not fit is the end of the row itself, so a trailing token is excluded
    cases x' with
    | trailing c t _ =>
      obtain ⟨-, hk, -⟩ := hx'
      obtain rfl : t = stop'.1 := hstop
      rw [stop'.2] at hk
      cases hk
    | stray lead g w t d _ =>
      obtain rfl : t = stop'.1 := hstop
      obtain rfl := hafter
      exact h.runAlike_stray keepGoing standIn b hx' ht'
  · -- the comment stands behind the token that does not fit
    obtain ⟨hfront, -⟩ : x'.before ++ x'.token :: after = tokens front ∧ [last] = [stop'.1] := by
      refine List.append_inj' (Eq.trans ?_ ht') rfl
      rw [x'.tokens_eq, hafter]
      simp
    let x := x'.followedBy (after ++ [r.token, stop.1])
    have htokens : x.tokens = tokens front ++ [r.token, stop.1] := by
      rw [x'.tokens_followedBy, ← hfront]
      simp
    have hx : x.Fits := hx'.followedBy_remark ht' htokens
    exact h.runAlike_of_slip keepGoing standIn b hx hx'
      (htokens.trans (tokens_row r chunks front stop).symm) ht' (x'.moves_followedBy ..)
      (x'.diagnostic_followedBy _ ▸ .refl _)

/-- **Without the comment the row does the same.** -/
theorem runAlike (h : Stripped r chunks front back back' stop stop') :
    RunAlike (fun _ => 0) keepGoing standIn b (.ofReadings (front ++ [⟨chunks, .ok r.token⟩] ++ back))
      (.ofReadings (front ++ back')) := by
  rcases h.bare.exists_line_or_slip with ⟨l, hl, ht⟩ | ⟨x, hx, ht⟩
  · exact h.runAlike_line keepGoing standIn b hl ht
  · exact h.runAlike_slip keepGoing standIn b hx ht

end

end Stripped

end LineCalc
