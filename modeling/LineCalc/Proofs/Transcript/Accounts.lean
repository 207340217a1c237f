import LineCalc.Proofs.Reading.Along
import LineCalc.Proofs.Transcript.Course
import LineCalc.Proofs.Transcript.Records

/-!
# The accounts of a row

`Accounts` keeps the books between two states of a script: which tokens were taken, what was read, and
which diagnostics were put out. `Balanced` says what the statements were counted for: each has a value,
a diagnostic or an assignment to show for it, or is a line with nothing but a comment. The books are
kept for a line, for a slip, and for what is skipped behind one.
-/

namespace LineCalc

open Grammar Move

/-! ### Lines with nothing but a comment -/

/-- How many of some tokens are comments with no token in front of them on their line. The flag tells
whether the tokens start a line. -/
def commentLines : (first : Bool) → List Token → Nat
  | _, [] => 0
  | first, t :: toks =>
    (if first = true ∧ t.kind = .comment then 1 else 0) + commentLines (t.kind = .newLine) toks

section

variable {first : Bool} {toks toks' : List Token} {a stop : Token}

theorem commentLines_of_ne_comment (h : ∀ t ∈ toks, t.kind ≠ .comment) : commentLines first toks = 0 := by
  induction toks generalizing first with
  | nil => rfl
  | cons t toks ih =>
    rw [List.forall_mem_cons] at h
    rw [commentLines, ih h.2, if_neg fun hc => h.1 hc.2]

theorem commentLines_inside (h : ∀ t ∈ toks, t.kind.endsLine = false)
    (h' : ∀ t ∈ toks', t.kind ≠ .comment) : commentLines false (toks ++ toks') = 0 := by
  induction toks with
  | nil => exact commentLines_of_ne_comment h'
  | cons t toks ih =>
    rw [List.forall_mem_cons] at h
    have ht : t.kind ≠ .newLine := by
      intro hk
      simp [hk, TokenKind.endsLine] at h
    rw [List.cons_append, commentLines, if_neg (by simp), decide_eq_false ht, ih h.2]

/-- On a line with tokens only the first one can count. -/
theorem commentLines_cons (ha : a.kind.endsLine = false) (h : ∀ t ∈ toks, t.kind.endsLine = false)
    (h' : ∀ t ∈ toks', t.kind ≠ .comment) :
    commentLines true (a :: (toks ++ toks')) = if a.kind = .comment then 1 else 0 := by
  have hk : a.kind ≠ .newLine := by
    intro hk
    simp [hk, TokenKind.endsLine] at ha
  rw [commentLines, decide_eq_false hk, commentLines_inside h h']
  simp

/-- Behind a line break a new line starts. -/
theorem commentLines_append (hs : stop.kind = .newLine) :
    commentLines first (toks ++ [stop] ++ toks') =
      commentLines first (toks ++ [stop]) + commentLines true toks' := by
  induction toks generalizing first with
  | nil => simp [commentLines, hs]
  | cons t toks ih =>
    simp only [List.cons_append, commentLines]
    rw [ih, Nat.add_assoc]

end

namespace Grammar

theorem LineEnd.kind_ne_comment_of_mem (stop : LineEnd) :
    ∀ t ∈ taken (LineEnd.moves stop), t.kind ≠ .comment := by
  unfold LineEnd.moves
  split
  · rename_i hk
    intro t ht
    obtain rfl : t = stop.1 := by simpa using ht
    simp [hk]
  · simp

/-- What is shown to be an expression or an assignment does not start with a comment. -/
theorem Lead.ShownBy.kind_ne_comment {lead : Lead} {a : Token} {toks more : List Token}
    (h : lead.ShownBy (a :: toks)) (ht : a :: toks = lead.tokens ++ more) : a.kind ≠ .comment := by
  obtain ⟨a', b', rest, he, -, hlead⟩ := h
  obtain ⟨rfl, -⟩ := List.cons.inj he
  cases lead with
  | print => exact hlead.1
  | store m equals =>
    obtain ⟨rfl, -⟩ := List.cons.inj ht
    simp [m.isIdent]

theorem Content.endsLine (c : Content) : ∀ t ∈ c.tokens, t.kind.endsLine = false := by
  have hremark : ∀ r : Remark, r.token.kind.endsLine = false := by
    intro r
    simp [r.isComment, TokenKind.endsLine]
  cases c with
  | remark r => simpa [tokens] using hremark r
  | expression lead e r? =>
    simp only [tokens, List.forall_mem_append]
    refine ⟨⟨?_, e.endsLine⟩, ?_⟩
    · cases lead with
      | print => simp [Lead.tokens]
      | store m equals => simp [Lead.tokens, m.isIdent, equals.2, TokenKind.endsLine]
    · cases r? with
      | none => simp [Remark.tokens]
      | some r => simpa [Remark.tokens] using hremark r

theorem Lead.exists_tokens_eq_cons (lead : Lead) (e : Phrase .sum) (r? : Option Remark) :
    ∃ a toks, (Content.expression lead e r?).tokens = a :: toks ∧ a.kind ≠ .comment := by
  cases lead with
  | store m equals => exact ⟨m.token, _, rfl, by simp [m.isIdent]⟩
  | print =>
    obtain ⟨a, toks, ht⟩ := List.exists_cons_of_ne_nil e.tokens_ne_nil
    refine ⟨a, toks ++ Remark.tokens r?, by simp [Content.tokens, Lead.tokens, ht], fun hk => ?_⟩
    have ha := e.inExpression a (by simp [ht])
    simp [hk, TokenKind.inExpression] at ha

/-- The verdict on an expression is one output or one assignment. -/
theorem Content.length_verdict (scope : Scope) (lead : Lead) (e : Phrase .sum) (r? : Option Remark) :
    (Move.noted Event.stored? ((expression lead e r?).verdict scope)).length +
      (outputs ((expression lead e r?).verdict scope)).countP (!·.isNotice) = 1 := by
  cases hf : ((expression lead e r?).faults scope).head? with
  | some d =>
    have hd := (expression lead e r?).isArithmetic_of_mem_faults scope d (List.mem_of_head? hf)
    have hn : d.isNotice = false := by
      obtain ⟨problem, span⟩ := d
      cases problem <;> first | rfl | cases hd
    rw [verdict, hf]
    simp [Output.isNotice, hn]
  | none =>
    cases lead with
    | print =>
      simp [verdict, hf, deed, Lead.deed, Output.isNotice]
    | store m equals =>
      simp [verdict, hf, deed, Lead.deed, Event.stored?]

/-- Where nothing stands behind comments, a slip does not start with one. -/
theorem Slip.Fits.kind_ne_comment {x : Slip} {a : Token} {toks rest : List Token} (hx : x.Fits)
    (htidy : Tidy (x.tokens ++ rest)) (ha : x.tokens = a :: toks) : a.kind ≠ .comment := by
  cases x with
  | stray lead g w t d after =>
    obtain ⟨-, -, -, hshown⟩ := hx
    rw [ha] at hshown
    exact hshown.kind_ne_comment ha.symm
  | trailing c t after =>
    obtain ⟨-, ht, -, hshown⟩ := hx
    cases c with
    | expression lead e r? =>
      have he : a :: toks = lead.tokens ++ (e.tokens ++ Remark.tokens r? ++ t :: after) := by
        rw [← ha]
        simp [Slip.tokens, Content.tokens]
      rw [ha] at hshown
      exact hshown.kind_ne_comment he
    | remark r =>
      -- the token behind the comment would end the line
      obtain ⟨u, post, hpost, hu⟩ := htidy [] r.token (t :: (after ++ rest)) rfl r.isComment
      obtain ⟨rfl, -⟩ := List.cons.inj hpost
      rw [ht] at hu
      cases hu

end Grammar

/-! ### Keeping the books -/

/-- Is this output a diagnostic that is not fatal? -/
def Output.isMild : Output → Bool
  | .value _ => false
  | .diagnostic d => !d.isFatal

variable {standIn : Span → Number} {b b' : Bindings} {s s' t u : Script} {m : List Move}
variable {c c' : Bool} {os os' : List Output} {toks toks' row rest : List Token} {n n' : Nat}

/-- Between `s` and `t` the tokens `toks` were taken and `os` was put out, and that is what was counted
and logged. -/
structure Accounts (s : Script) (toks : List Token) (os : List Output) (t : Script) : Prop where
  ahead : s.ahead = toks ++ t.ahead
  inner : ∀ k ∈ toks, k.kind ≠ .endOfInput
  shifted : t.noted Event.taken? = s.noted Event.taken? ++ toks.map Token.entry
  tokens : t.evalTally.tokens = s.evalTally.tokens + toks.length
  /-- What was read was counted, and its diagnostics were put out in their order. -/
  read : ∃ read, s.unread = read ++ t.unread ∧
    os.filter Output.isLexical = (Reading.diagnostics read).map .diagnostic ∧
    t.readTally = read.foldl (fun sum r => sum + r.tally) s.readTally
  diagnostics : t.evalTally.diagnostics = s.evalTally.diagnostics + os.countP Output.isMild

theorem Accounts.trans (h : Accounts s toks os t) (h' : Accounts t toks' os' u) :
    Accounts s (toks ++ toks') (os ++ os') u where
  ahead := by rw [h.ahead, h'.ahead, List.append_assoc]
  inner := List.forall_mem_append.mpr ⟨h.inner, h'.inner⟩
  shifted := by rw [h'.shifted, h.shifted, List.map_append, List.append_assoc]
  tokens := by rw [h'.tokens, h.tokens, List.length_append, Nat.add_assoc]
  read := by
    obtain ⟨read, hu, hl, ht⟩ := h.read
    obtain ⟨read', hu', hl', ht'⟩ := h'.read
    refine ⟨read ++ read', ?_, ?_, ?_⟩
    · rw [hu, hu', List.append_assoc]
    · rw [List.filter_append, hl, hl', Reading.diagnostics_append, List.map_append]
    · rw [ht', ht, List.foldl_append]
  diagnostics := by rw [h'.diagnostics, h.diagnostics, List.countP_append, Nat.add_assoc]

/-- A statement is counted for each value, for each arithmetic and each fatal diagnostic, for each
assignment that was made, and for `n` lines with nothing but a comment. -/
def Balanced (s : Script) (os : List Output) (n : Nat) (t : Script) : Prop :=
  t.evalTally.statements + (s.noted Event.stored?).length =
    s.evalTally.statements + (t.noted Event.stored?).length + os.countP (!·.isNotice) + n

theorem Balanced.trans (h : Balanced s os n t) (h' : Balanced t os' n' u) :
    Balanced s (os ++ os') (n + n') u := by
  unfold Balanced at h h' ⊢
  rw [List.countP_append]
  omega

theorem countP_of_notices (h : ∀ o ∈ os, o.isNotice = true) : os.countP (!·.isNotice) = 0 := by
  rw [List.countP_eq_zero]
  intro o ho
  simp [h o ho]

theorem length_diagnostics_of_mild (h : ∀ d, .diagnostic d ∈ os → d.isFatal = false) :
    (os.filterMap Output.diagnostic?).length = os.countP Output.isMild := by
  induction os with
  | nil => rfl
  | cons o os ih =>
    have hrest := ih fun d hd => h d (List.mem_cons_of_mem o hd)
    rw [List.countP_cons, List.filterMap_cons, ← hrest]
    cases o with
    | value v => rfl
    | diagnostic d =>
      have hd := h d List.mem_cons_self
      simp [Output.diagnostic?, Output.isMild, hd]

/-- The books of some moves, none of which puts out a fatal diagnostic. -/
theorem Progress.accounts (p : Progress s m t) (hs : s.Lexical) (hq : s.queue = [])
    (hm : Move.noted Event.taken? m = (taken m).map Token.entry)
    (hmild : ∀ d, .diagnostic d ∈ t.queue → d.isFatal = false) :
    Accounts s (taken m) t.queue t.flushed := by
  obtain ⟨read, new, hu, hnew, hl, -⟩ := p.queue hs
  obtain ⟨read', new', hu', hnew', hread, hd⟩ := p.acts ▸ Script.counts_acts s m
  obtain rfl : read = read' := List.append_cancel_right (hu.symm.trans hu')
  rw [hq, List.nil_append] at hnew hnew'
  subst hnew hnew'
  refine ⟨p.ahead, p.legal.kind_ne_endOfInput, ?_, p.tokens, ⟨read, hu, hl, hread⟩, ?_⟩
  · show t.noted Event.taken? = _
    rw [p.acts, Script.noted_acts Event.inner_taken?, hm]
  · rw [← length_diagnostics_of_mild hmild]
    exact hd

theorem Accounts.failed {d : Diagnostic} (h : Accounts s toks os t.flushed) (hd : d.isFatal = true) :
    Accounts s toks (os ++ [.diagnostic d]) (t.failed d) := by
  have hl := Diagnostic.isLexical_of_isFatal hd
  refine { h with shifted := ?_, read := ?_, diagnostics := ?_ }
  · rw [← h.shifted]
    exact Script.noted_of_none t (Event.inner_taken?.halted d)
  · obtain ⟨read, hu, hf, ht⟩ := h.read
    refine ⟨read, hu, ?_, ht⟩
    rw [List.filter_append, hf]
    simp [Output.isLexical, hl]
  · have hmild : Output.isMild (.diagnostic d) = false := by simp [Output.isMild, hd]
    rw [List.countP_append, List.countP_singleton, hmild]
    exact h.diagnostics

/-! ### The books of a line -/

namespace Grammar.Line

variable {l : Line}

theorem noted_taken? (scope : Scope) (l : Line) :
    Move.noted Event.taken? (l.moves scope) = (taken (l.moves scope)).map Token.entry := by
  have hverdict : ∀ c : Content, Move.noted Event.taken? (c.verdict scope) = [] := by
    intro c
    unfold Content.verdict
    split <;> rfl
  cases l with
  | blank stop =>
    have hstop := noted_taken?_of_ordinary stop.ordinary_moves
    simpa [moves] using hstop
  | full c stop =>
    have hcontent := noted_taken?_of_ordinary (c.ordinary_moves scope)
    have hstop := noted_taken?_of_ordinary stop.ordinary_moves
    simp only [moves, Move.noted_cons, Move.noted_append, taken_cons, taken_append, List.map_append,
      hcontent, hstop, hverdict, Content.taken_verdict]
    rfl

/-- How many statements a line is. -/
theorem countP_counts_moves (scope : Scope) (l : Line) : (l.moves scope).countP counts =
    match l with
    | blank _ => 0
    | full _ _ => 1 := by
  cases l with
  | blank stop =>
    have hstop := countP_counts_of_ordinary stop.ordinary_moves
    simp [moves, hstop]
  | full c stop =>
    have hcontent := countP_counts_of_ordinary (c.ordinary_moves scope)
    have hstop := countP_counts_of_ordinary stop.ordinary_moves
    have hverdict : (c.verdict scope).countP counts = 0 := by
      unfold Content.verdict
      split <;> rfl
    simp only [moves, List.countP_cons, List.countP_append, hcontent, hstop, hverdict]
    rfl

/-- A line counts as a statement when it has a verdict or is a comment. -/
theorem countP_counts_eq (scope : Scope) (l : Line) : (l.moves scope).countP counts =
    (Move.noted Event.stored? (l.verdict scope)).length +
      (outputs (l.verdict scope)).countP (!·.isNotice) + commentLines true l.takes := by
  rw [countP_counts_moves]
  cases l with
  | blank stop =>
    have hstop : commentLines true (taken stop.moves) = 0 :=
      commentLines_of_ne_comment stop.kind_ne_comment_of_mem
    simp [verdict, takes, hstop]
  | full c stop =>
    cases c with
    | remark r =>
      have hr : r.token.kind.endsLine = false := by simp [r.isComment, TokenKind.endsLine]
      have hc : commentLines true (r.token :: ([] ++ taken stop.moves)) = _ :=
        commentLines_cons hr (by simp) stop.kind_ne_comment_of_mem
      rw [if_pos r.isComment] at hc
      exact (congrArg (0 + 0 + ·) hc).symm
    | expression lead e r? =>
      obtain ⟨a, toks, ht, hk⟩ := lead.exists_tokens_eq_cons e r?
      have hin := (Content.expression lead e r?).endsLine
      rw [ht, List.forall_mem_cons] at hin
      have hc := commentLines_cons hin.1 hin.2 stop.kind_ne_comment_of_mem
      rw [if_neg hk] at hc
      have hv := Content.length_verdict scope lead e r?
      rw [takes, ht, verdict, List.cons_append, hc, hv]

/-- The books of a line. -/
theorem accounts (scope : Scope) (hl : l.height ≤ maxNesting) (hs : s.Sound) (hr : s.Ready)
    (ha : s.ahead = l.tokens ++ rest) :
    Accounts s l.takes (s.acts (l.moves scope)).queue (s.acts (l.moves scope)).flushed ∧
      Balanced s (s.acts (l.moves scope)).queue (commentLines true l.takes)
        (s.acts (l.moves scope)).flushed := by
  have p := l.progress scope hl ha hs.room
  obtain ⟨new, hqueue, hnew⟩ := l.exists_queue scope hl hs hr ha
  constructor
  · rw [← l.taken_moves scope]
    exact p.accounts hs.lexical hr.queue (l.noted_taken? scope)
      fun d hd => l.isFatal_of_mem_queue scope hl hs hr ha hd
  · have hstored : (s.acts (l.moves scope)).flushed.noted Event.stored? = _ :=
      Script.noted_acts Event.inner_stored? s (l.moves scope)
    have hstatements : (s.acts (l.moves scope)).flushed.evalTally.statements = _ := p.statements
    unfold Balanced
    rw [hstored, hstatements, l.countP_counts_eq, l.noted_stored?, List.length_append, hqueue,
      List.countP_append, countP_of_notices hnew]
    omega

end Grammar.Line

/-! ### The books of a slip -/

theorem Feed.ordinary_skipMoves (body : List Token) (stop : LineEnd) :
    ∀ x ∈ Feed.skipMoves body stop, x.Ordinary := by
  rw [Feed.skipMoves, List.forall_mem_append]
  refine ⟨fun x hx => ?_, stop.ordinary_moves⟩
  obtain ⟨t, -, hx⟩ := List.mem_flatMap.mp hx
  rcases List.mem_cons.mp hx with rfl | hx
  · exact .first
  · obtain rfl := List.mem_singleton.mp hx
    exact .take t

namespace Grammar.Slip

variable {x : Slip} {body : List Token} {stop : LineEnd}

theorem noted_stored?_failed (scope : Scope) (s : Script) (x : Slip) :
    ((s.acts (x.moves scope)).failed x.diagnostic).noted Event.stored? = s.noted Event.stored? := by
  have hfailed : ((s.acts (x.moves scope)).failed x.diagnostic).noted Event.stored? =
      (s.acts (x.moves scope)).noted Event.stored? :=
    Script.noted_of_none _ (Event.inner_stored?.halted x.diagnostic)
  rw [hfailed, Script.noted_acts Event.inner_stored?, x.noted_stored?, List.append_nil]

theorem noted_stored?_skipped (scope : Scope) (s : Script) (x : Slip) (body : List Token)
    (stop : LineEnd) : (s.skipped scope x body stop).noted Event.stored? =
      ((s.acts (x.moves scope)).failed x.diagnostic).noted Event.stored? := by
  have hacts : (s.skipped scope x body stop).noted Event.stored? = _ :=
    Script.noted_acts Event.inner_stored? _ (Feed.skipMoves body stop)
  rw [hacts, noted_stored?_of_ordinary (Feed.ordinary_skipMoves body stop), List.append_nil]

/-- The books of a slip up to its fatal diagnostic. -/
theorem accounts (scope : Scope) (hx : x.Fits) (hs : s.Sound) (hr : s.Ready)
    (ha : s.ahead = x.tokens ++ rest) :
    Accounts s x.before ((s.acts (x.moves scope)).queue ++ [.diagnostic x.diagnostic])
        ((s.acts (x.moves scope)).failed x.diagnostic) ∧
      Balanced s ((s.acts (x.moves scope)).queue ++ [.diagnostic x.diagnostic]) 0
        ((s.acts (x.moves scope)).failed x.diagnostic) := by
  have p := x.progress scope hx ha hs.room
  have hnotices := x.notices scope hx hs hr ha
  obtain ⟨inner, hm, hinner⟩ := x.exists_moves_eq scope
  constructor
  · refine Accounts.failed ?_ hx.isFatal
    rw [← x.taken_moves scope]
    refine p.accounts hs.lexical hr.queue ?_ fun d hd => Diagnostic.isFatal_of_isNotice (hnotices _ hd)
    have htaken := noted_taken?_of_ordinary hinner
    rw [hm]
    simpa using htaken
  · -- one statement is counted, and of what is put out only the fatal diagnostic is no notice
    have hstatements : ((s.acts (x.moves scope)).failed x.diagnostic).evalTally.statements =
        s.evalTally.statements + 1 := by
      have hcount : (x.moves scope).countP counts = 1 := by
        rw [hm]
        simp [List.countP_cons, countP_counts_of_ordinary hinner]
      rw [← hcount]
      exact p.statements
    have hone : ((s.acts (x.moves scope)).queue ++ [Output.diagnostic x.diagnostic]).countP
        (!·.isNotice) = 1 := by
      have hfatal : x.diagnostic.isNotice = false := by
        by_contra hn
        have := Diagnostic.isFatal_of_isNotice (by simpa using hn)
        rw [hx.isFatal] at this
        cases this
      rw [List.countP_append, countP_of_notices hnotices]
      simp [Output.isNotice, hfatal]
    unfold Balanced
    rw [x.noted_stored?_failed, hstatements, hone]
    omega

/-- The books of skipping what is left of a slip. -/
theorem accounts_skip (scope : Scope) (hx : x.Fits) (hs : s.Sound) (ha : s.ahead = x.tokens ++ rest)
    (he : x.token :: x.after = body ++ [stop.1]) (hb : ∀ k ∈ body, k.kind.endsLine = false) :
    Accounts ((s.acts (x.moves scope)).failed x.diagnostic) (body ++ taken stop.moves)
        (s.skipped scope x body stop).queue (s.skipped scope x body stop).flushed ∧
      Balanced ((s.acts (x.moves scope)).failed x.diagnostic) (s.skipped scope x body stop).queue 0
        (s.skipped scope x body stop).flushed := by
  have hsound := (hs.progress (x.progress scope hx ha hs.room)).failed x.diagnostic
  have q := x.progress_skip scope hx ha hs.room stop he hb
  obtain ⟨read, -, -, hlexical⟩ := x.exists_queue_skipped scope hx hs ha he hb
  have hordinary := Feed.ordinary_skipMoves body stop
  have hnotices : ∀ o ∈ (s.skipped scope x body stop).queue, o.isNotice = true :=
    fun o ho => Output.isNotice_of_isLexical (hlexical o ho)
  constructor
  · have haccounts := q.accounts hsound.lexical rfl (noted_taken?_of_ordinary hordinary)
      fun d hd => Diagnostic.isFatal_of_isNotice (hnotices _ hd)
    rw [Feed.taken_skipMoves] at haccounts
    exact { haccounts with }
  · have hstored : (s.skipped scope x body stop).flushed.noted Event.stored? = _ :=
      x.noted_stored?_skipped scope s body stop
    have hstatements : (s.skipped scope x body stop).flushed.evalTally.statements = _ := q.statements
    unfold Balanced
    rw [hstored, hstatements, countP_counts_of_ordinary hordinary, countP_of_notices hnotices]
    omega

/-- No token of a slip is a comment alone on its line. -/
theorem Fits.commentLines_eq_zero {more : List Token} (hx : x.Fits) (htidy : Tidy (x.tokens ++ rest))
    (he : x.tokens = toks ++ more) (hin : ∀ k ∈ toks, k.kind.endsLine = false)
    (hends : ∀ k ∈ toks', k.kind ≠ .comment) : commentLines true (toks ++ toks') = 0 := by
  cases toks with
  | nil => exact commentLines_of_ne_comment hends
  | cons a toks =>
    rw [List.forall_mem_cons] at hin
    rw [List.cons_append, commentLines_cons hin.1 hin.2 hends]
    exact if_neg (hx.kind_ne_comment htidy he)

/-- What does not fit is the end of the input when the diagnostic says so. -/
theorem Fits.kind_of_diagnostic {place : Span} (hx : x.Fits)
    (hd : x.diagnostic = ⟨.unexpected .endOfInput, place⟩) : x.token.kind = .endOfInput := by
  rcases hx.diagnostic_eq with h | h
  · cases h.symm.trans hd
  · have hfound : Found.ofToken x.token = .endOfInput :=
      Problem.unexpected.inj (Diagnostic.mk.inj (h.symm.trans hd)).1
    unfold Found.ofToken at hfound
    split at hfound
    · assumption
    · cases hfound
    · cases hfound

/-- The token that does not fit is looked at last. -/
theorem exists_moves_eq_look (scope : Scope) (x : Slip) : ∃ front, x.moves scope = front ++ [.look 0] := by
  have hwant : ∀ (w : Want) (t : Token), ∃ front, w.moves scope t = front ++ [.look 0] := by
    intro w t
    cases w with
    | operand =>
      by_cases ht : t.kind = .func ∨ t.kind = .leftParen
      · exact ⟨[.look 0, .look 0], by simp [Want.moves, ht]⟩
      · exact ⟨[.look 0], by simp [Want.moves, ht]⟩
    | bracket f => exact ⟨[.look 0, .look 0, .enter, .take f.token], rfl⟩
    | closeCall f opening arg =>
      exact ⟨.look 0 :: .look 0 :: .enter :: .take f.token :: .look 0 :: .take opening.1 ::
        (arg.moves scope ++ [.look 0]), by simp [Want.moves]⟩
    | close opening inner =>
      exact ⟨.look 0 :: .look 0 :: .enter :: .take opening.1 :: (inner.moves scope ++ [.look 0]), by
        simp [Want.moves]⟩
  cases x with
  | stray lead g w t d after =>
    obtain ⟨front, hw⟩ := hwant w t
    exact ⟨.clear :: .look 0 :: .count :: .look 0 :: .look 1 ::
      (lead.moves ++ (g.moves scope ++ front)), by simp [moves, hw]⟩
  | trailing c t after => exact ⟨.clear :: .look 0 :: .count :: c.moves scope, by simp [moves]⟩

theorem lookahead_ne_nil (scope : Scope) (hx : x.Fits) (hs : s.Sound)
    (ha : s.ahead = x.tokens ++ rest) : (s.acts (x.moves scope)).lookahead ≠ [] := by
  obtain ⟨front, hm⟩ := x.exists_moves_eq_look scope
  have hlegal := (x.progress scope hx ha hs.room).legal
  rw [hm, allLegal_append] at hlegal
  rw [hm, Script.acts_append]
  exact Script.act_look_lookahead_ne_nil
    (hs.progress (Script.progress_acts hlegal.1)).length_ahead_pos

end Grammar.Slip

end LineCalc
