import LineCalc.Script.Statement

/-!
# What evaluation does to a script

The tokens ahead of a script are those looked at and not yet taken, and behind them those still to
be read. Everything that an evaluation does is a list of moves: it reads on until it can look at a
token, takes one, reports a name without a value, blames an operation, and so on. `Script.acts` does
the moves one after the other, and `Progress` says what has become of the script then, if none
reached past the tokens ahead. `Progress.trans` puts two lists of moves together.
-/

namespace LineCalc

/-! ### Readings -/

namespace Reading

/-- The token that was read, if it is one. -/
def token? (r : Reading) : Option Token := r.item.toOption

/-- The diagnostic that was read, if it is one. -/
def diagnostic? (r : Reading) : Option Diagnostic :=
  match r.item with
  | .ok _ => none
  | .error d => some d

/-- The tokens among readings. -/
def tokens (rs : List Reading) : List Token := rs.filterMap token?

/-- The diagnostics among readings. -/
def diagnostics (rs : List Reading) : List Diagnostic := rs.filterMap diagnostic?

@[simp] theorem tokens_nil : tokens [] = [] := rfl

@[simp] theorem tokens_ok (chunks : List Chunk) (t : Token) (rs : List Reading) :
    tokens (⟨chunks, .ok t⟩ :: rs) = t :: tokens rs := rfl

@[simp] theorem tokens_error (chunks : List Chunk) (d : Diagnostic) (rs : List Reading) :
    tokens (⟨chunks, .error d⟩ :: rs) = tokens rs := rfl

@[simp] theorem tokens_append (rs rs' : List Reading) :
    tokens (rs ++ rs') = tokens rs ++ tokens rs' := List.filterMap_append

@[simp] theorem diagnostics_append (rs rs' : List Reading) :
    diagnostics (rs ++ rs') = diagnostics rs ++ diagnostics rs' := List.filterMap_append

end Reading

/-- Does this diagnostic come from reading? It is then of an illegal character or a literal out of
range. -/
def Diagnostic.isLexical (d : Diagnostic) : Bool :=
  match d.problem with
  | .illegalChar _ | .literalRange _ => true
  | _ => false

/-- Is this output a diagnostic that comes from reading? -/
def Output.isLexical : Output → Bool
  | .value _ => false
  | .diagnostic d => d.isLexical

namespace Script

/-- The tokens that are still to be taken. -/
def ahead (s : Script) : List Token := s.lookahead ++ Reading.tokens s.unread

/-- Every diagnostic still to be read is a lexical one. -/
def Lexical (s : Script) : Prop := ∀ r ∈ s.unread, ∀ d, r.item = .error d → d.isLexical = true

end Script

/-! ### Moves -/

/-- A move of an evaluation. -/
inductive Move where
  /-- Reads on until more than `n` tokens can be looked at. -/
  | look (n : Nat)
  /-- Takes the token `t`, the next one. -/
  | take (t : Token)
  /-- Puts out a diagnostic. -/
  | report (d : Diagnostic)
  /-- Puts out a value. -/
  | print (value : Number)
  /-- Records a fault. -/
  | blame (d : Diagnostic)
  /-- Forgets the fault. -/
  | forgive
  /-- Adds an event to the log. -/
  | note (e : Event)
  /-- Enters a level of nesting. -/
  | enter
  /-- Leaves a level of nesting. -/
  | leave
  /-- Prepares for a statement. -/
  | clear
  /-- Counts a statement. -/
  | count

namespace Move

/-- The token that is taken. -/
@[simp] def token? : Move → Option Token
  | take t => some t
  | _ => none

/-- What is put out. -/
@[simp] def output? : Move → Option Output
  | report d => some (.diagnostic d)
  | print value => some (.value value)
  | _ => none

/-- The fault that is on record afterwards. -/
@[simp] def charge (fault : Option Diagnostic) : Move → Option Diagnostic
  | blame d => fault.or (some d)
  | forgive => none
  | clear => none
  | _ => fault

/-- Does the move count a statement? -/
@[simp] def counts : Move → Bool
  | count => true
  | _ => false

/-- The tokens that moves take. -/
def taken (t : List Move) : List Token := t.filterMap token?

/-- What moves put out. -/
def outputs (t : List Move) : List Output := t.filterMap output?

@[simp] theorem taken_nil : taken [] = [] := rfl

@[simp] theorem taken_cons (x : Move) (t : List Move) :
    taken (x :: t) = x.token?.toList ++ taken t := by
  cases x <;> rfl

@[simp] theorem taken_append (t t' : List Move) : taken (t ++ t') = taken t ++ taken t' :=
  List.filterMap_append

@[simp] theorem outputs_nil : outputs [] = [] := rfl

@[simp] theorem outputs_cons (x : Move) (t : List Move) :
    outputs (x :: t) = x.output?.toList ++ outputs t := by
  cases x <;> rfl

@[simp] theorem outputs_append (t t' : List Move) : outputs (t ++ t') = outputs t ++ outputs t' :=
  List.filterMap_append

@[simp] theorem taken_map_report (ds : List Diagnostic) : taken (ds.map report) = [] := by
  induction ds <;> simp [*]

@[simp] theorem taken_map_blame (ds : List Diagnostic) : taken (ds.map blame) = [] := by
  induction ds <;> simp [*]

@[simp] theorem outputs_map_report (ds : List Diagnostic) :
    outputs (ds.map report) = ds.map .diagnostic := by
  induction ds <;> simp [*]

@[simp] theorem outputs_map_blame (ds : List Diagnostic) : outputs (ds.map blame) = [] := by
  induction ds <;> simp [*]

@[simp] theorem foldl_charge_map_report (fault : Option Diagnostic) (ds : List Diagnostic) :
    (ds.map report).foldl charge fault = fault := by
  induction ds <;> simp [*]

/-- Of several faults the first is kept. -/
@[simp] theorem foldl_charge_map_blame (fault : Option Diagnostic) (ds : List Diagnostic) :
    (ds.map blame).foldl charge fault = fault.or ds.head? := by
  induction ds generalizing fault with
  | nil => simp
  | cons d ds ih => simp [ih]

/-- Can a move be made with these tokens ahead? None reaches past them, and none takes the end of
the input or puts out a diagnostic that only reading gives rise to. -/
def Legal (toks : List Token) : Move → Prop
  | look n => n < toks.length
  | take t => toks.head? = some t ∧ t.kind ≠ .endOfInput
  | report d => d.isLexical = false
  | _ => True

end Move

namespace Script

/-- Makes a move. -/
def act (s : Script) : Move → Script
  | .look n => (s.fillFrom n s.unread).getD s
  | .take t => ((s.fillFrom 0 s.unread).getD s).shift t
  | .report d => s.report d
  | .print value => s.print value
  | .blame d => s.blame d
  | .forgive => { s with fault := none }
  | .note e => s.logged e
  | .enter => { s with depth := s.depth + 1 }
  | .leave => { s with depth := s.depth - 1 }
  | .clear => s.cleared
  | .count => s.counted

/-- Does moves one after the other. -/
def acts (s : Script) (t : List Move) : Script := t.foldl act s

@[simp] theorem acts_nil (s : Script) : s.acts [] = s := rfl

@[simp] theorem acts_cons (s : Script) (x : Move) (t : List Move) :
    s.acts (x :: t) = (s.act x).acts t := rfl

theorem acts_append (s : Script) (t t' : List Move) : s.acts (t ++ t') = (s.acts t).acts t' :=
  List.foldl_append

end Script

namespace Move

/-- Can moves be done one after the other with these tokens ahead? -/
def AllLegal : List Token → List Move → Prop
  | _, [] => True
  | toks, x :: t => x.Legal toks ∧ AllLegal (toks.drop x.token?.toList.length) t

theorem allLegal_append {toks : List Token} {t t' : List Move} :
    AllLegal toks (t ++ t') ↔ AllLegal toks t ∧ AllLegal (toks.drop (taken t).length) t' := by
  induction t generalizing toks with
  | nil => simp [AllLegal]
  | cons x t ih =>
    rw [List.cons_append, AllLegal, AllLegal, ih, and_assoc, List.drop_drop, taken_cons,
      List.length_append]

/-- The end of the input is never taken. -/
theorem AllLegal.kind_ne_endOfInput {toks : List Token} {t : List Move} (h : AllLegal toks t) :
    ∀ tok ∈ taken t, tok.kind ≠ .endOfInput := by
  induction t generalizing toks with
  | nil => intro tok ht; cases ht
  | cons x t ih =>
    obtain ⟨hx, h⟩ := h
    intro tok ht
    rw [taken_cons] at ht
    obtain ht | ht := List.mem_append.mp ht
    · cases x with
      | take t' =>
        obtain rfl : tok = t' := by simpa using ht
        exact hx.2
      | _ => simp at ht
    · exact ih h tok ht

end Move

open Move (taken outputs AllLegal)

/-- `s'` differs from `s` by what the moves `t` take, put out and record, and by what was read
meanwhile. The nesting depth is left out. -/
structure Effect (s : Script) (t : List Move) (s' : Script) : Prop where
  ahead : s.ahead = taken t ++ s'.ahead
  size : s'.size = s.size
  failure : s'.failure = s.failure
  halted : s'.halted = s.halted
  finished : s'.finished = s.finished
  fault : s'.fault = t.foldl Move.charge s.fault
  tokens : s'.evalTally.tokens = s.evalTally.tokens + (taken t).length
  statements : s'.evalTally.statements = s.evalTally.statements + t.countP Move.counts
  /-- What comes from reading is what was read, and the rest is what the moves put out. -/
  queue : s.Lexical → ∃ read new, s.unread = read ++ s'.unread ∧ s'.queue = s.queue ++ new ∧
    new.filter Output.isLexical = (Reading.diagnostics read).map .diagnostic ∧
    new.filter (!·.isLexical) = outputs t

/-- `s'` is the script after the moves `t` on `s`, none of which reached past the tokens ahead. -/
structure Progress (s : Script) (t : List Move) (s' : Script) : Prop extends Effect s t s' where
  acts : s' = s.acts t
  legal : AllLegal s.ahead t

variable {s s₁ s₂ s₃ : Script} {t t₁ t₂ : List Move} {rest : List Token}

namespace Effect

theorem lexical (p : Effect s₁ t s₂) (h : s₁.Lexical) : s₂.Lexical := by
  obtain ⟨read, new, hu, -⟩ := p.queue h
  intro r hr
  exact h r (by rw [hu]; exact List.mem_append_right _ hr)

theorem refl (s : Script) : Effect s [] s where
  ahead := rfl
  size := rfl
  failure := rfl
  halted := rfl
  finished := rfl
  fault := rfl
  tokens := rfl
  statements := rfl
  queue _ := ⟨[], [], rfl, by simp, rfl, rfl⟩

theorem trans (p : Effect s₁ t₁ s₂) (q : Effect s₂ t₂ s₃) : Effect s₁ (t₁ ++ t₂) s₃ where
  ahead := by rw [p.ahead, q.ahead, Move.taken_append, List.append_assoc]
  size := q.size.trans p.size
  failure := q.failure.trans p.failure
  halted := q.halted.trans p.halted
  finished := q.finished.trans p.finished
  fault := by rw [q.fault, p.fault, List.foldl_append]
  tokens := by rw [q.tokens, p.tokens, Move.taken_append, List.length_append]; omega
  statements := by rw [q.statements, p.statements, List.countP_append]; omega
  queue h := by
    obtain ⟨read₁, new₁, u₁, q₁, f₁, g₁⟩ := p.queue h
    obtain ⟨read₂, new₂, u₂, q₂, f₂, g₂⟩ := q.queue (p.lexical h)
    refine ⟨read₁ ++ read₂, new₁ ++ new₂, ?_, ?_, ?_, ?_⟩
    · rw [u₁, u₂, List.append_assoc]
    · rw [q₂, q₁, List.append_assoc]
    · rw [List.filter_append, f₁, f₂, Reading.diagnostics_append, List.map_append]
    · rw [List.filter_append, g₁, g₂, Move.outputs_append]

/-- What is ahead when the moves have taken the tokens in front. -/
theorem ahead_eq (p : Effect s₁ t s₂) (h : s₁.ahead = taken t ++ rest) : s₂.ahead = rest :=
  List.append_cancel_left (p.ahead.symm.trans h)

theorem room (p : Effect s₁ t s₂) (h : s₁.ahead.length ≤ s₁.size) :
    s₂.ahead.length ≤ s₂.size := by
  have := congrArg List.length p.ahead
  rw [p.size]
  simp only [List.length_append] at this
  omega

end Effect

namespace Progress

theorem refl (s : Script) : Progress s [] s := ⟨Effect.refl s, rfl, trivial⟩

theorem trans (p : Progress s₁ t₁ s₂) (q : Progress s₂ t₂ s₃) : Progress s₁ (t₁ ++ t₂) s₃ where
  toEffect := p.toEffect.trans q.toEffect
  acts := by rw [q.acts, p.acts, Script.acts_append]
  legal := by
    refine Move.allLegal_append.mpr ⟨p.legal, ?_⟩
    rw [p.ahead, List.drop_left]
    exact q.legal

end Progress

/-! ### What the moves do -/

namespace Script

theorem progress_print (s : Script) (value : Number) :
    Progress s [.print value] (s.print value) where
  toEffect := { Effect.refl s with queue := fun _ => ⟨[], [.value value], rfl, rfl, rfl, rfl⟩ }
  acts := rfl
  legal := ⟨trivial, trivial⟩

theorem progress_report {d : Diagnostic} (hd : d.isLexical = false) (s : Script) :
    Progress s [.report d] (s.report d) where
  toEffect := { Effect.refl s with
    queue := fun _ => ⟨[], [.diagnostic d], rfl, rfl, by simp [Output.isLexical, hd,
      Reading.diagnostics], by simp [Output.isLexical, hd]⟩ }
  acts := rfl
  legal := ⟨hd, trivial⟩

theorem progress_blame (s : Script) (d : Diagnostic) : Progress s [.blame d] (s.blame d) :=
  ⟨{ Effect.refl s with fault := rfl }, rfl, ⟨trivial, trivial⟩⟩

theorem progress_forgive (s : Script) : Progress s [.forgive] { s with fault := none } :=
  ⟨{ Effect.refl s with fault := rfl }, rfl, ⟨trivial, trivial⟩⟩

theorem progress_note (s : Script) (e : Event) : Progress s [.note e] (s.logged e) :=
  ⟨{ Effect.refl s with }, rfl, ⟨trivial, trivial⟩⟩

theorem progress_enter (s : Script) : Progress s [.enter] { s with depth := s.depth + 1 } :=
  ⟨{ Effect.refl s with }, rfl, ⟨trivial, trivial⟩⟩

theorem progress_leave (s : Script) : Progress s [.leave] { s with depth := s.depth - 1 } :=
  ⟨{ Effect.refl s with }, rfl, ⟨trivial, trivial⟩⟩

theorem progress_clear (s : Script) : Progress s [.clear] s.cleared :=
  ⟨{ Effect.refl s with fault := rfl }, rfl, ⟨trivial, trivial⟩⟩

theorem progress_count (s : Script) : Progress s [.count] s.counted :=
  ⟨{ Effect.refl s with statements := rfl }, rfl, ⟨trivial, trivial⟩⟩

theorem effect_absorb (s : Script) (r : Reading) (rest : List Reading) :
    Effect { s with unread := r :: rest } [] { s.absorb r with unread := rest } := by
  obtain ⟨chunks, item⟩ := r
  cases item with
  | ok t =>
    refine { Effect.refl _ with ahead := ?_, queue := fun _ => ?_ }
    · simp [ahead, absorb]
    · exact ⟨[⟨chunks, .ok t⟩], [], rfl, by simp [absorb], rfl, rfl⟩
  | error d =>
    refine { Effect.refl _ with ahead := ?_, queue := fun h => ?_ }
    · simp [ahead, absorb, report, logged]
    · have hd : d.isLexical = true := h ⟨chunks, .error d⟩ (by simp) d rfl
      refine ⟨[⟨chunks, .error d⟩], [.diagnostic d], rfl, rfl, ?_, ?_⟩
      · simp [Output.isLexical, hd, Reading.diagnostics, Reading.diagnostic?]
      · simp [Output.isLexical, hd]

@[simp] theorem depth_absorb (s : Script) (r : Reading) : (s.absorb r).depth = s.depth := by
  unfold absorb
  split <;> rfl

/-- If there are enough tokens ahead, reading on finds them and puts none in their place. -/
theorem fillFrom_eq_some {n : Nat} {rs : List Reading}
    (h : n < (s.lookahead ++ Reading.tokens rs).length) :
    ∃ s', s.fillFrom n rs = some s' ∧ Effect { s with unread := rs } [] s' ∧
      n < s'.lookahead.length ∧ s'.depth = s.depth := by
  -- item by item, until enough tokens were found
  induction rs generalizing s with
  | nil =>
    rw [Reading.tokens_nil, List.append_nil] at h
    have hne : s.lookahead ≠ [] := by intro e; simp [e] at h
    have hz : n + 1 - s.lookahead.length = 0 := by omega
    refine ⟨{ s with unread := [] }, ?_, Effect.refl _, h, rfl⟩
    rw [fillFrom, List.getLast?_eq_some_getLast hne, hz]
    simp
  | cons r rest ih =>
    rw [fillFrom]
    by_cases hn : n < s.lookahead.length
    · rw [if_pos hn]
      exact ⟨_, rfl, Effect.refl _, hn, rfl⟩
    · rw [if_neg hn]
      have hp := effect_absorb s r rest
      have hl : n < ((s.absorb r).lookahead ++ Reading.tokens rest).length := by
        have ha := hp.ahead
        simp only [ahead, Move.taken_nil, List.nil_append] at ha
        rwa [← ha]
      obtain ⟨s', hs, ps, hls, hd⟩ := ih hl
      exact ⟨s', hs, hp.trans ps, hls, by rw [hd, depth_absorb]⟩

theorem progress_look {n : Nat} (h : n < s.ahead.length) :
    ∃ s', s.fillFrom n s.unread = some s' ∧ Progress s [.look n] s' ∧ n < s'.lookahead.length ∧
      s'.depth = s.depth := by
  obtain ⟨s', hs, ps, hl, hd⟩ := fillFrom_eq_some h
  exact ⟨s', hs, ⟨{ ps with }, by rw [acts_cons, act, hs]; rfl, ⟨h, trivial⟩⟩, hl, hd⟩

theorem effect_shift {tok : Token} {l : List Token} (hs : s.lookahead = tok :: l)
    (ht : tok.kind ≠ .endOfInput) : Effect s [.take tok] (s.shift tok) :=
  { Effect.refl s with
    ahead := by simp [ahead, shift, logged, hs, ht]
    tokens := rfl
    queue := fun _ => ⟨[], [], rfl, by simp [shift, logged], rfl, rfl⟩ }

end Script

theorem get_bind {ε α : Type} (f : Script → EStateM ε Script α) (s : Script) :
    (get >>= f) s = f s s := rfl

theorem modify_bind {ε α : Type} (g : Script → Script) (f : Unit → EStateM ε Script α) (s : Script) :
    (modify g >>= f) s = f () (g s) := rfl

section

variable {ε α β : Type} {m : EStateM ε Script α} {f : α → EStateM ε Script β} {s' : Script}

theorem bind_ok {a : α} (h : m s = .ok a s') : (m >>= f) s = f a s' := by
  simp only [bind, EStateM.bind, h]

theorem bind_error {e : ε} (h : m s = .error e s') : (m >>= f) s = .error e s' := by
  simp only [bind, EStateM.bind, h]

/-- If two steps come to a result, the first of them does. -/
theorem exists_of_bind_eq_ok {b : β} (h : (m >>= f) s = .ok b s') :
    ∃ a s₁, m s = .ok a s₁ ∧ f a s₁ = .ok b s' := by
  cases hm : m s with
  | ok a s₁ =>
    rw [bind_ok hm] at h
    exact ⟨a, s₁, rfl, h⟩
  | error e s₁ =>
    rw [bind_error hm] at h
    cases h

end

namespace Feed

variable {tok : Token}

theorem peek_eq_ok {n : Nat} (h : s.ahead[n]? = some tok) :
    ∃ s', peek n s = .ok tok s' ∧ Progress s [.look n] s' ∧ s'.lookahead[n]? = some tok ∧
      s'.depth = s.depth := by
  obtain ⟨hn, -⟩ := List.getElem?_eq_some_iff.mp h
  obtain ⟨s', hs, ps, hl, hd⟩ := Script.progress_look hn
  have ht : s'.lookahead[n]? = some tok := by
    have ha : s.ahead = s'.ahead := ps.ahead
    rw [ha, Script.ahead, List.getElem?_append_left hl] at h
    exact h
  refine ⟨s', ?_, ps, ht, hd⟩
  have hf : fill n s = .ok () s' := by
    rw [fill, hs]
  rw [peek, bind_ok hf, get_bind, ht]
  rfl

theorem advance_eq_ok (h : s.ahead = tok :: rest) (ht : tok.kind ≠ .endOfInput) :
    ∃ s', advance s = .ok tok s' ∧ Progress s [.take tok] s' ∧ s'.depth = s.depth := by
  obtain ⟨s₁, hs, p₁, hl, hd⟩ := Script.progress_look (n := 0) (s := s) (by simp [h])
  have h₀ : s.ahead[0]? = some tok := by rw [h]; rfl
  obtain ⟨s₁', h₁, p₁', hl', -⟩ := peek_eq_ok h₀
  obtain rfl : s₁ = s₁' := p₁.acts.trans p₁'.acts.symm
  obtain ⟨l, hl⟩ : ∃ l, s₁.lookahead = tok :: l := by
    cases hc : s₁.lookahead with
    | nil => simp [hc] at hl'
    | cons a l => exact ⟨l, by simp [hc] at hl'; rw [hl']⟩
  refine ⟨s₁.shift tok, ?_, ⟨?_, ?_, ?_⟩, hd⟩
  · rw [advance, bind_ok h₁]
    rfl
  · exact { p₁.toEffect.trans (Script.effect_shift hl ht) with }
  · rw [Script.acts_cons, Script.act, hs]
    rfl
  · exact ⟨⟨by rw [h]; rfl, ht⟩, trivial⟩

end Feed

namespace Script

/-- Every move that can be made makes progress. -/
theorem progress_act {x : Move} (h : x.Legal s.ahead) : Progress s [x] (s.act x) := by
  cases x with
  | look n =>
    obtain ⟨s', -, p, -⟩ := progress_look h
    obtain rfl : s' = s.act (.look n) := p.acts
    exact p
  | take tok =>
    obtain ⟨hh, hk⟩ := h
    obtain ⟨rest, ha⟩ := List.head?_eq_some_iff.mp hh
    obtain ⟨s', -, p, -⟩ := Feed.advance_eq_ok ha hk
    obtain rfl : s' = s.act (.take tok) := p.acts
    exact p
  | report d => exact progress_report h s
  | print value => exact progress_print s value
  | blame d => exact progress_blame s d
  | forgive => exact progress_forgive s
  | note e => exact progress_note s e
  | enter => exact progress_enter s
  | leave => exact progress_leave s
  | clear => exact progress_clear s
  | count => exact progress_count s

/-- So do several that can be made one after the other. -/
theorem progress_acts {t : List Move} (h : AllLegal s.ahead t) : Progress s t (s.acts t) := by
  induction t generalizing s with
  | nil => exact Progress.refl s
  | cons x t ih =>
    obtain ⟨hx, h⟩ := h
    have p := progress_act hx
    have ha : s.ahead.drop x.token?.toList.length = (s.act x).ahead := by
      rw [p.ahead, Move.taken_cons, Move.taken_nil, List.append_nil, List.drop_left]
    rw [ha] at h
    exact p.trans (ih h)

end Script

end LineCalc
