import LineCalc.Proofs.Evaluation.Exact
import LineCalc.Proofs.Grammar.Kinds
import LineCalc.Proofs.Transcript.Names

/-!
# The kinds of all values of a run

Which values of a run are floats can be told line by line, without any of the numbers: an assignment
gives its name the kind of its expression, and what is printed has the kind of its expression. Only
which lines come to a value has to be known; a line with a fault, or one that does not fit the
grammar, prints and stores nothing.
-/

namespace LineCalc

open Grammar Move

variable {standIn : Span → Number} {b b' : Bindings} {s s' t : Script} {scope : Scope}
variable {c c' : Bool} {os : List Output} {v : Number} {row rest : List Token}

/-! ### Expressions -/

namespace Eval

/-- If an evaluation comes to a value, it is that of the expression whose tokens were taken. -/
theorem exists_of_wholeExpression (hs : s.Sound) (hd : s.depth = 0)
    (h : wholeExpression scope s = .ok v s') : ∃ e : Phrase .sum, s.ahead = e.tokens ++ s'.ahead ∧
      v = e.value scope ∧ s'.fault = s.fault.or (e.faults scope).head? := by
  have hr : Readable s.ahead := by
    obtain ⟨before, stop, ha, hk, -⟩ := hs.ends
    exact ⟨⟨stop, by simp [ha], by simp [hk, TokenKind.endsLine]⟩, hs.wellFormed⟩
  rcases leads hr with ⟨e, next, rest, ha, hh, hn⟩ | ⟨g, w, t, rest, d, ha, hh, hi, hb⟩
  · have hp : Poised s e.tokens e.height next := ⟨⟨rest, ha⟩, hs.room, by rw [hd]; exact hh⟩
    obtain ⟨u, hu, p, -⟩ := yields_wholeExpression scope e hp hd (isOperator_eq_false hn)
    obtain ⟨rfl, rfl⟩ := EStateM.Result.ok.inj (hu.symm.trans h)
    refine ⟨e, ?_, rfl, ?_⟩
    · simpa using p.ahead
    · simpa using p.fault
  · obtain ⟨u, hu, -⟩ := fails_wholeExpression scope g (s := s) (w := w) (t := t) (d := d)
      ⟨⟨rest, ha⟩, hs.room, by rw [hd]; exact hh, by rw [hd]; exact hi, by rw [hd]; exact hb⟩ hd
    cases hu.symm.trans h

/-- Without a fault, the tokens that were taken and the kinds of the names tell its kind. -/
theorem isFloat_of_wholeExpression (hs : s.Sound) (ht : ∀ t ∈ s.ahead, t.Typed) (hd : s.depth = 0)
    (h : wholeExpression scope s = .ok v s') (hf : s'.fault = none) : ∃ e : Phrase .sum,
      s.ahead = e.tokens ++ s'.ahead ∧ v = e.value scope ∧
      v.isFloat = e.tokens.any (·.makesFloat scope.bindings.kinds) := by
  obtain ⟨e, ha, rfl, hfault⟩ := exists_of_wholeExpression hs hd h
  refine ⟨e, ha, rfl, e.isFloat_value scope (fun t hm => ht t ?_) ?_⟩
  · rw [ha]
    exact List.mem_append_left _ hm
  · rw [hf, eq_comm, Option.or_eq_none_iff] at hfault
    exact List.head?_eq_none_iff.mp hfault.2

end Eval

/-! ### The static rule -/

/-- The lines that tokens make up, each without its end. -/
def tokenLines : List Token → List (List Token)
  | [] => []
  | t :: rest =>
    match t.kind with
    | .endOfInput => []
    | .newLine => [] :: tokenLines rest
    | _ =>
      match tokenLines rest with
      | [] => [[t]]
      | row :: rows => (t :: row) :: rows

/-- The name that a line assigns to. -/
def target? : List Token → Option String
  | t :: u :: _ => if u.kind = .equals then t.name? else none
  | _ => none

/-- Does the expression of a line come to a float, if it comes to a value? -/
def rowFloats (kinds : String → Bool) (row : List Token) : Bool :=
  (if (target? row).isSome then row.drop 2 else row).any (·.makesFloat kinds)

/-- The kinds of the names behind a line that comes to a value. -/
def kindsBehind (kinds : String → Bool) (row : List Token) : String → Bool :=
  match target? row with
  | none => kinds
  | some name => fun name' => if name' = name then rowFloats kinds row else kinds name'

/-- The kinds of the values that lines come to, one after the other. The flags tell which lines come
to a value. -/
def staticKinds (kinds : String → Bool) : List (List Token × Bool) → List Bool
  | [] => []
  | (row, true) :: rest => rowFloats kinds row :: staticKinds (kindsBehind kinds row) rest
  | (_, false) :: rest => staticKinds kinds rest

/-- A line of a run, without its end, and the value that it comes to. -/
structure Outcome where
  row : List Token
  value? : Option Number

namespace Outcome

/-- The value that is printed. -/
def printed? (o : Outcome) : Option Number := if (target? o.row).isSome then none else o.value?

/-- The name and the value that are stored. -/
def stored? (o : Outcome) : Option (String × Number) :=
  (target? o.row).bind fun name => o.value?.map (name, ·)

/-- The line, and whether it comes to a value. -/
def shape (o : Outcome) : List Token × Bool := (o.row, o.value?.isSome)

/-- The line is an expression without a fault, if it comes to a value, and the value is that of the
expression. -/
def Evaluates (scope : Scope) (o : Outcome) : Prop :=
  ∀ v, o.value? = some v → ∃ lead e r?, o.row = (Content.expression lead e r?).tokens ∧
    e.faults scope = [] ∧ v = e.value scope

/-- Each line is evaluated with the bindings that those in front of it leave behind. -/
def AllEvaluate (standIn : Span → Number) : Bindings → List Outcome → Prop
  | _, [] => True
  | b, o :: rest =>
    o.Evaluates ⟨b, standIn⟩ ∧ AllEvaluate standIn (b.setAll o.stored?.toList) rest

/-- The bindings behind a line, what is printed and what is stored are as the outcome says, and the
kinds are those of the static rule. -/
structure Records (scope : Scope) (o : Outcome) (b' : Bindings) (values : List Number)
    (stores : List (String × Number)) : Prop where
  printed : values = o.printed?.toList
  stored : stores = o.stored?.toList
  bindings : b' = scope.bindings.setAll stores
  evaluates : o.Evaluates scope
  kind : ∀ v, o.value? = some v → v.isFloat = rowFloats scope.bindings.kinds o.row
  kinds : b'.kinds =
    if o.value?.isSome then kindsBehind scope.bindings.kinds o.row else scope.bindings.kinds

/-- A line without a value prints nothing, stores nothing and leaves the bindings alone. -/
theorem records_none (row : List Token) (scope : Scope) :
    Records scope ⟨row, none⟩ scope.bindings [] [] where
  printed := by
    rw [printed?]
    split <;> rfl
  stored := by
    rw [stored?]
    cases target? row <;> rfl
  bindings := rfl
  evaluates v hv := by cases hv
  kind v hv := by cases hv
  kinds := rfl

end Outcome

/-! ### Lines -/

theorem tokenLines_cons_newLine {t : Token} (ht : t.kind = .newLine) :
    tokenLines (t :: rest) = [] :: tokenLines rest := by
  rw [tokenLines, ht]

theorem tokenLines_cons_endOfInput {t : Token} (ht : t.kind = .endOfInput) :
    tokenLines (t :: rest) = [] := by
  rw [tokenLines, ht]

theorem tokenLines_cons_inside {t : Token} (ht : t.kind.endsLine = false) :
    tokenLines (t :: rest) =
      match tokenLines rest with
      | [] => [[t]]
      | row :: rows => (t :: row) :: rows := by
  rw [tokenLines]
  cases hk : t.kind <;> first | rfl | (rw [hk] at ht; cases ht)

/-- Where the tokens of a line are taken, the lines behind it are left. -/
theorem tokenLines_of_taken {body ahead : List Token} {stop : LineEnd}
    (hb : ∀ t ∈ body, t.kind.endsLine = false) (hne : body ≠ [] ∨ stop.1.kind = .newLine)
    (h : stop.1 :: rest = taken stop.moves ++ ahead) :
    tokenLines (body ++ stop.1 :: rest) = body :: tokenLines ahead := by
  -- a line break is taken with its row; the end of the input stays, and has no row of its own
  rcases stop.kind_eq with hk | hk
  · rw [LineEnd.taken_moves_of_newLine hk] at h
    obtain ⟨-, rfl⟩ := List.cons.inj h
    clear h hne
    induction body with
    | nil => exact tokenLines_cons_newLine hk
    | cons a body ih =>
      rw [List.forall_mem_cons] at hb
      rw [List.cons_append, tokenLines_cons_inside hb.1, ih hb.2]
  · replace hne : body ≠ [] := hne.resolve_right (by simp [hk])
    rw [LineEnd.taken_moves_of_endOfInput hk] at h
    have hahead : tokenLines ahead = [] := by
      obtain rfl : stop.1 :: rest = ahead := h
      exact tokenLines_cons_endOfInput hk
    rw [hahead]
    clear h hahead
    induction body with
    | nil => exact absurd rfl hne
    | cons a body ih =>
      rw [List.forall_mem_cons] at hb
      rw [List.cons_append, tokenLines_cons_inside hb.1]
      cases body with
      | nil => rw [List.nil_append, tokenLines_cons_endOfInput hk]
      | cons a' body => rw [ih hb.2 (List.cons_ne_nil _ _)]

namespace Grammar.Content

/-- The value that the content of a line comes to. -/
def value? (scope : Scope) : Content → Option Number
  | .remark _ => none
  | .expression _ e _ =>
    match e.faults scope with
    | [] => some (e.value scope)
    | _ :: _ => none

/-- What is printed has no target. -/
theorem target?_print (e : Phrase .sum) (r? : Option Remark) :
    target? (expression .print e r?).tokens = none := by
  have hclosing : Gap.someClosing.1.kind ≠ .equals := by decide
  obtain ⟨a, b, more, ht, -, -, hab⟩ := (expression .print e r?).shownBy hclosing []
  cases htoks : (expression .print e r?).tokens with
  | nil => rfl
  | cons t toks =>
    cases toks with
    | nil => rfl
    | cons u toks =>
      obtain ⟨rfl, rfl⟩ : t = a ∧ u = b := by
        rw [htoks] at ht
        exact ⟨(List.cons.inj ht).1, (List.cons.inj (List.cons.inj ht).2).1⟩
      rw [target?]
      split
      · rename_i hu
        rw [Token.name?]
        split
        · rename_i hk _
          exact absurd ⟨hk, hu⟩ hab
        · rfl
      · rfl

theorem target?_store (m : Mention) (equals : { t : Token // t.kind = .equals }) (e : Phrase .sum)
    (r? : Option Remark) : target? (expression (.store m equals) e r?).tokens = some m.name := by
  show (if equals.1.kind = .equals then m.token.name? else none) = _
  rw [if_pos equals.2, m.name?_token]

/-- A comment makes no float. -/
theorem any_makesFloat_remark (kinds : String → Bool) (r? : Option Remark) :
    (Remark.tokens r?).any (·.makesFloat kinds) = false := by
  cases r? with
  | none => rfl
  | some r => simp [Remark.tokens, Token.makesFloat, r.isComment]

/-- The kind of the value is that of the static rule. -/
theorem rowFloats_expression (kinds : String → Bool) (lead : Lead) (e : Phrase .sum)
    (r? : Option Remark) : rowFloats kinds (expression lead e r?).tokens =
      e.tokens.any (·.makesFloat kinds) := by
  have hany : (e.tokens ++ Remark.tokens r?).any (·.makesFloat kinds) =
      e.tokens.any (·.makesFloat kinds) := by
    rw [List.any_append, any_makesFloat_remark, Bool.or_false]
  cases lead with
  | print =>
    rw [rowFloats, target?_print]
    exact hany
  | store m equals =>
    rw [rowFloats, target?_store]
    exact hany

/-- **A line comes to what the static rule says.** -/
theorem records (scope : Scope) (k : Content) (ht : ∀ t ∈ k.tokens, t.Typed) :
    Outcome.Records scope ⟨k.tokens, k.value? scope⟩ (k.bindings scope)
      ((outputs (k.verdict scope)).filterMap Output.value?)
      (Move.noted Event.stored? (k.verdict scope)) := by
  cases k with
  | remark r => exact Outcome.records_none _ _
  | expression lead e r? =>
    -- a fault leaves the line without a value; else the static rule tells its kind
    cases hf : e.faults scope with
    | cons d ds =>
      have hnone : value? scope (expression lead e r?) = none := by rw [value?, hf]
      rw [hnone, bindings, verdict, faults, hf]
      exact Outcome.records_none _ _
    | nil =>
      have hvalue : value? scope (expression lead e r?) = some (e.value scope) := by rw [value?, hf]
      have hkind : (e.value scope).isFloat =
          rowFloats scope.bindings.kinds (expression lead e r?).tokens := by
        rw [rowFloats_expression]
        exact e.isFloat_value scope (fun t hm => ht t (by simp [tokens, hm])) hf
      have hevaluates : Outcome.Evaluates scope
          ⟨(expression lead e r?).tokens, some (e.value scope)⟩ := fun v hv =>
        ⟨lead, e, r?, rfl, hf, (Option.some.inj hv).symm⟩
      rw [hvalue, bindings, verdict, faults, hf]
      cases lead with
      | print =>
        refine ⟨?_, ?_, rfl, hevaluates, fun v hv => Option.some.inj hv ▸ hkind, ?_⟩
        · rw [Outcome.printed?, target?_print]
          rfl
        · rw [Outcome.stored?, target?_print]
          rfl
        · rw [kindsBehind, target?_print]
          rfl
      | store m equals =>
        refine ⟨?_, ?_, rfl, hevaluates, fun v hv => Option.some.inj hv ▸ hkind, ?_⟩
        · rw [Outcome.printed?, target?_store]
          rfl
        · rw [Outcome.stored?, target?_store]
          rfl
        · rw [kindsBehind, target?_store]
          show (scope.bindings.set m.name (e.value scope)).kinds = _
          rw [Bindings.kinds_set, hkind]
          rfl

end Grammar.Content

/-! ### Runs -/

theorem Grammar.Line.records (scope : Scope) {l : Line} (ht : ∀ t ∈ l.tokens, t.Typed)
    (hres : l.result scope = some b') : ∃ o : Outcome, o.row = l.body ∧
      o.Records scope b' ((outputs (l.verdict scope)).filterMap Output.value?)
        (Move.noted Event.stored? (l.moves scope)) := by
  rw [l.noted_stored?]
  cases l with
  | blank stop =>
    obtain rfl : b' = scope.bindings := by
      rw [Line.result] at hres
      split at hres
      · exact (Option.some.inj hres).symm
      · cases hres
    exact ⟨⟨[], none⟩, rfl, Outcome.records_none _ _⟩
  | full k stop =>
    obtain rfl := Option.some.inj hres
    exact ⟨⟨k.tokens, k.value? scope⟩, rfl,
      k.records scope fun t h => ht t (List.mem_append_left _ h)⟩

theorem filterMap_value?_of_notices {os : List Output} (h : ∀ o ∈ os, o.isNotice = true) :
    os.filterMap Output.value? = [] := by
  rw [List.filterMap_eq_nil_iff]
  intro o ho
  cases o with
  | value n => cases h _ ho
  | diagnostic d => rfl

/-- Behind a row the lines are left that were behind its line. -/
theorem tokenLines_of_row {body : List Token} {stop : LineEnd} (hrow : IsRow (body ++ [stop.1]))
    (ha : s.ahead = (body ++ [stop.1]) ++ rest) (hne : body ≠ [] ∨ stop.1.kind = .newLine)
    (htaken : s.ahead = (body ++ taken stop.moves) ++ t.ahead) :
    tokenLines s.ahead = body :: tokenLines t.ahead := by
  rw [List.append_assoc] at ha htaken
  have hsplit := ha.symm.trans htaken
  rw [ha]
  exact tokenLines_of_taken hrow.body_inside hne (List.append_cancel_left hsplit)

/-- Evaluating a line leaves the lines behind it. -/
theorem Grammar.Line.tokenLines_eq (scope : Scope) {l : Line} (hl : l.height ≤ maxNesting)
    (hs : s.Sound) (ha : s.ahead = l.tokens ++ rest) (hrow : IsRow l.tokens)
    (hresult : l.result scope = some b') :
    tokenLines s.ahead = l.body :: tokenLines (s.acts (l.moves scope)).ahead := by
  have htaken : s.ahead = l.takes ++ (s.acts (l.moves scope)).ahead :=
    l.taken_moves scope ▸ (l.progress scope hl ha hs.room).ahead
  rw [l.tokens_eq_body] at ha hrow
  refine tokenLines_of_row hrow ha ?_ (l.takes_eq_body ▸ htaken)
  rcases l.stop.kind_eq with hk | hk
  · exact .inr hk
  · refine .inl fun hnil => l.takes_ne_nil hresult ?_
    rw [l.takes_eq_body, hnil, LineEnd.taken_moves_of_endOfInput hk, List.append_nil]

/-- Skipping the rest of a line that does not fit the grammar does so, too. -/
theorem Grammar.Slip.tokenLines_eq (scope : Scope) {x : Slip} {body : List Token} {stop : LineEnd}
    (hx : x.Fits) (hs : s.Sound) (ha : s.ahead = x.tokens ++ rest) (hrow : IsRow x.tokens)
    (he : x.token :: x.after = body ++ [stop.1]) (hb : ∀ t ∈ body, t.kind.endsLine = false) :
    tokenLines s.ahead = (x.before ++ body) :: tokenLines (s.skipped scope x body stop).ahead := by
  have htokens : x.tokens = (x.before ++ body) ++ [stop.1] := by
    rw [x.tokens_eq, he, List.append_assoc]
  have htaken : s.ahead = ((x.before ++ body) ++ taken stop.moves) ++
      (s.skipped scope x body stop).ahead := by
    have h₁ := (x.progress scope hx ha hs.room).ahead
    have h₂ := (x.progress_skip scope hx ha hs.room stop he hb).ahead
    rw [x.taken_moves] at h₁
    rw [Feed.taken_skipMoves] at h₂
    rw [h₁, List.append_assoc, List.append_assoc, ← List.append_assoc body]
    exact congrArg (x.before ++ ·) h₂
  have hne : x.before ++ body ≠ [] := by
    intro hnil
    have hlength := hx.two_le_length
    rw [htokens, hnil] at hlength
    simp at hlength
  rw [htokens] at ha hrow
  exact tokenLines_of_row hrow ha (.inl hne) htaken

theorem Passes.exists_outcome (h : Passes c standIn b s os b' t) (hs : s.Sound) (hr : s.Ready)
    (ht : ∀ k ∈ s.ahead, k.Typed) : ∃ o : Outcome, ∃ stores,
      tokenLines s.ahead = o.row :: tokenLines t.ahead ∧
      o.Records ⟨b, standIn⟩ b' (os.filterMap Output.value?) stores ∧
      t.noted Event.stored? = s.noted Event.stored? ++ stores := by
  obtain ⟨row, rest, ha, hrow⟩ := hs.exists_row
  rcases h.row_cases hs hr.finished ha hrow with
    ⟨l, hl, rfl, hresult, rfl, rfl⟩ | ⟨-, rfl, x, body, stop, hx, rfl, he, hb, rfl, rfl⟩
  · obtain ⟨o, horow, hrecords⟩ := l.records ⟨b, standIn⟩
      (fun k hk => ht k (by rw [ha]; exact List.mem_append_left _ hk)) hresult
    obtain ⟨new, hq, hn⟩ := l.exists_queue ⟨b, standIn⟩ hl hs hr ha
    refine ⟨o, _, ?_, ?_, Script.noted_acts Event.inner_stored? s (l.moves ⟨b, standIn⟩)⟩
    · rw [horow]
      exact l.tokenLines_eq ⟨b, standIn⟩ hl hs ha hrow hresult
    · rw [hq, List.filterMap_append, filterMap_value?_of_notices hn, List.nil_append]
      exact hrecords
  · obtain ⟨read, -, -, hlexical⟩ := x.exists_queue_skipped ⟨b', standIn⟩ hx hs ha he hb
    refine ⟨⟨x.before ++ body, none⟩, [], x.tokenLines_eq ⟨b', standIn⟩ hx hs ha hrow he hb, ?_, ?_⟩
    · rw [List.filterMap_append, filterMap_value?_of_notices (x.notices ⟨b', standIn⟩ hx hs hr ha),
        List.filterMap_cons_none rfl, filterMap_value?_of_notices fun o ho =>
          Output.isNotice_of_isLexical (hlexical o ho)]
      exact Outcome.records_none _ _
    · rw [List.append_nil]
      exact (x.noted_stored?_skipped _ s body stop).trans (x.noted_stored?_failed _ s)

/-- The end of a run prints nothing. At the end of the input no line is left. -/
theorem Ends.records (h : Ends c standIn b s os c' t) (hs : s.Sound) (hr : s.Ready) :
    os.filterMap Output.value? = [] ∧ (c' = true → tokenLines s.ahead = []) := by
  obtain ⟨row, rest, ha, hrow⟩ := hs.exists_row
  rcases h.row_cases hs ha hrow with
    ⟨-, l, hl, rfl, hresult, rfl, -⟩ | ⟨-, rfl, x, hx, rfl, rfl, -⟩
  · have hk : l.stop.1.kind = .endOfInput := Line.kind_stop_of_result hresult
    obtain ⟨new, hq, hn⟩ := l.exists_queue ⟨b, standIn⟩ hl hs hr ha
    cases l with
    | full k stop => cases hresult
    | blank stop =>
      refine ⟨?_, fun _ => ha ▸ tokenLines_cons_endOfInput hk⟩
      rw [hq, List.filterMap_append, filterMap_value?_of_notices hn]
      rfl
  · refine ⟨?_, fun hc => by cases hc⟩
    rw [List.filterMap_append, filterMap_value?_of_notices (x.notices ⟨b, standIn⟩ hx hs hr ha)]
    rfl

/-- **The static rule tells the kinds of the values of a run.** -/
theorem Runs.exists_outcomes (h : Runs c standIn b s os c' b' t) (hs : s.Sound) (hr : s.Ready)
    (ht : ∀ k ∈ s.ahead, k.Typed) : ∃ outcomes : List Outcome,
      outcomes.map Outcome.row <+: tokenLines s.ahead ∧
      (c' = true → outcomes.map Outcome.row = tokenLines s.ahead) ∧
      os.filterMap Output.value? = outcomes.filterMap Outcome.printed? ∧
      t.noted Event.stored? = s.noted Event.stored? ++ outcomes.filterMap Outcome.stored? ∧
      Outcome.AllEvaluate standIn b outcomes ∧
      (outcomes.filterMap Outcome.value?).map Number.isFloat =
        staticKinds b.kinds (outcomes.map Outcome.shape) := by
  induction h with
  | last h =>
    obtain ⟨hvalues, hlines⟩ := h.records hs hr
    exact ⟨[], List.nil_prefix, fun hc => (hlines hc).symm, hvalues,
      (h.noted_stored? hs).trans (List.append_nil _).symm, trivial, rfl⟩
  | pass h rest ih =>
    obtain ⟨hs₁, hr₁⟩ := h.ready hs hr
    obtain ⟨o, stores, hlines, hrecords, hnoted⟩ := h.exists_outcome hs hr ht
    have ht₁ := fun k hk => ht k (h.ahead_subset hs hr hk)
    obtain ⟨outcomes, hprefix, hall, hvalues, hnoted', hevaluate, hkinds⟩ := ih hs₁ hr₁ ht₁
    -- the outcome of the row comes first, and the kinds behind it are those the next row starts
    -- with
    refine ⟨o :: outcomes, ?_, fun hc => ?_, ?_, ?_, ⟨hrecords.evaluates, ?_⟩, ?_⟩
    · rw [hlines]
      exact List.cons_prefix_cons.mpr ⟨rfl, hprefix⟩
    · rw [hlines, List.map_cons, hall hc]
    · rw [List.filterMap_append, hvalues, hrecords.printed, List.filterMap_cons]
      cases o.printed? <;> rfl
    · rw [hnoted', hnoted, hrecords.stored, List.filterMap_cons, List.append_assoc]
      cases o.stored? <;> rfl
    · rw [← hrecords.stored, ← hrecords.bindings]
      exact hevaluate
    · rw [hrecords.kinds] at hkinds
      rw [List.map_cons, Outcome.shape, List.filterMap_cons]
      cases hv : o.value? with
      | none =>
        rw [hv] at hkinds
        exact hkinds
      | some v =>
        rw [hv] at hkinds
        rw [Option.isSome_some, staticKinds, ← hrecords.kind v hv]
        exact congrArg _ hkinds

/-- **The kind of a result is determined by the text and the kinds of the names.** An expression
without a fault is a float just if there is a float among its literals and names, a division, or a
call; and when an evaluation comes to a value without a fault, this is so of the expression whose
tokens were taken. The values that a run prints and stores have the kinds that this rule gives line
by line. -/
theorem Session.run_kinds (config : Config) (b : Bindings) (source : String) :
    (∀ (st : Stratum) (e : Phrase st) (scope : Scope), (∀ t ∈ e.tokens, t.Typed) →
      e.faults scope = [] →
      (e.value scope).isFloat = e.tokens.any (·.makesFloat scope.bindings.kinds)) ∧
    (∀ (s s' : Script) (scope : Scope) (v : Number), s.Sound → (∀ t ∈ s.ahead, t.Typed) →
      s.depth = 0 → Eval.wholeExpression scope s = .ok v s' → s'.fault = none →
      ∃ e : Phrase .sum, s.ahead = e.tokens ++ s'.ahead ∧ v = e.value scope ∧
        v.isFloat = e.tokens.any (·.makesFloat scope.bindings.kinds)) ∧
    let transcript := (Session.run ⟨config, b⟩ source).1
    let lines := tokenLines (Reading.tokens (Reading.ofText config.names source))
    ∃ outcomes : List Outcome, outcomes.map Outcome.row <+: lines ∧
      (transcript.completed = true → outcomes.map Outcome.row = lines) ∧
      transcript.values = outcomes.filterMap Outcome.printed? ∧
      transcript.log.filterMap Event.stored? = outcomes.filterMap Outcome.stored? ∧
      Outcome.AllEvaluate config.standIn b outcomes ∧
      (outcomes.filterMap Outcome.value?).map Number.isFloat =
        staticKinds b.kinds (outcomes.map Outcome.shape) := by
  refine ⟨fun st e scope => e.isFloat_value scope,
    fun s s' scope v hs ht hd => Eval.isFloat_of_wholeExpression hs ht hd, ?_⟩
  obtain ⟨os, c, b', t, h, hrun⟩ := Session.exists_run_eq config b source
  obtain ⟨outcomes, hprefix, hall, hvalues, hnoted, hevaluate, hkinds⟩ :=
    h.exists_outcomes (Script.sound_ofText _ _) (Script.ready_ofText _ _)
      (Reading.typed_ofText _ _)
  rw [hrun]
  exact ⟨outcomes, hprefix, hall, hvalues,
    (Transcript.filterMap_log Event.inner_stored? ..).trans hnoted, hevaluate,
      hkinds⟩

/-- The expression `-x-1` is a float if the name stands for one. -/
theorem Session.run_kinds_negated :
    let b := ({} : Bindings).set "x" (.float 0.5)
    let s := Script.ofPhrase negated
    let transcript := (Session.run ⟨{}, b⟩ "-x-1").1
    ((∀ t ∈ negated.tokens, t.Typed) ∧ negated.faults (.ofBindings b) = [] ∧
      (negated.value (.ofBindings b)).isFloat = true) ∧
    (s.Sound ∧ (∀ t ∈ s.ahead, t.Typed) ∧ s.depth = 0 ∧
      ∃ v s', Eval.wholeExpression (.ofBindings b) s = .ok v s' ∧ s'.fault = none ∧
        ∃ e : Phrase .sum, s.ahead = e.tokens ++ s'.ahead ∧ v = e.value (.ofBindings b) ∧
          v.isFloat = e.tokens.any (·.makesFloat b.kinds)) ∧
    transcript.completed = true ∧
    ∃ outcomes : List Outcome,
      outcomes.map Outcome.row = tokenLines (Reading.tokens (Reading.ofText .free "-x-1")) ∧
      transcript.values = outcomes.filterMap Outcome.printed? ∧
      (outcomes.filterMap Outcome.value?).map Number.isFloat =
        staticKinds b.kinds (outcomes.map Outcome.shape) := by
  intro b s transcript
  obtain ⟨hexpression, hevaluated, outcomes, -, hall, hvalues, -, -, hkinds⟩ :=
    run_kinds {} b "-x-1"
  have htyped : ∀ t ∈ negated.tokens, t.Typed := by
    simp [negated, Phrase.tokens, Token.Typed, Number.isFloat, TokenKind.isFloatLiteral]
  have hs : s.Sound := Script.sound_ofPhrase (by
    simp [negated, Phrase.tokens, Token.WellFormed])
  have ha : s.ahead = negated.tokens ++ [endOfPhrase.1] := by
    rw [Script.ahead_ofPhrase]
    rfl
  have ht : ∀ t ∈ s.ahead, t.Typed := by
    rw [ha, List.forall_mem_append]
    exact ⟨htyped, by simp [Token.Typed, endOfPhrase, Reading.endToken]⟩
  have hfloat : negated.tokens.any (·.makesFloat b.kinds) = true := by decide
  have hcompleted : transcript.completed = true := by decide +kernel
  have hp : Poised s negated.tokens negated.height endOfPhrase.1 :=
    ⟨⟨[], ha⟩, hs.room, by decide⟩
  obtain ⟨s', hv, p, -⟩ := Eval.yields_wholeExpression (.ofBindings b) negated hp rfl rfl
  exact ⟨⟨htyped, rfl, (hexpression _ _ _ htyped rfl).trans hfloat⟩,
    ⟨hs, ht, rfl, _, s', hv, p.fault, hevaluated _ _ _ _ hs ht rfl hv p.fault⟩,
    hcompleted, outcomes, hall hcompleted, hvalues, hkinds⟩

end LineCalc
