import LineCalc.Proofs.Requests.Rounds
import LineCalc.Proofs.Session.Append

/-!
# Dialogues

A script and its bindings answer requests, one after the other: for the next output, or to recover.
What a statement leaves behind of faults and nesting has no effect on any answer, and a script
further down answers as it would at the start, with the places further down.
-/

namespace LineCalc

open Grammar Move

/-- What is asked of a script. -/
inductive Dialogue.Request where
  /-- The next output. -/
  | next
  /-- To go on behind the line that failed. -/
  | recover
deriving DecidableEq, Repr

/-- How a request is answered. -/
inductive Dialogue.Answer where
  | pulled (p : Pulled)
  | recovered (r : Bool)
  | breach (b : Breach)
deriving BEq, Repr

/-- A script that is asked for its outputs, and the bindings that it is evaluated with. -/
structure Dialogue where
  script : Script
  bindings : Bindings := {}

namespace Script

/-- The script when nobody waits for its fatal diagnostic any more. -/
def pardoned (s : Script) : Script := { s with failure := none }

/-- The script that goes on behind the row that failed, of which `body` and `stop` are left. -/
def resumed (s : Script) (body : List Token) (stop : LineEnd) : Script :=
  { s.pardoned.acts (Feed.skipMoves body stop) with halted := false }

theorem Sound.pardoned {s : Script} (hs : s.Sound) : s.pardoned.Sound :=
  ⟨hs.ends, hs.wellFormed, hs.lexical, hs.room⟩

end Script

namespace Dialogue

/-- The dialogue about a text. -/
def ofText (names : NameGrammar) (source : String) (bindings : Bindings) : Dialogue :=
  ⟨.ofText names source, bindings⟩

/-- Answers a request. -/
def answer (d : Dialogue) : Request → Answer × Dialogue
  | .next =>
    let (p, bindings, script) := d.script.next (fun _ => .int 0) d.bindings
    (.pulled p, ⟨script, bindings⟩)
  | .recover =>
    match Feed.recover d.script with
    | .ok r script => (.recovered r, { d with script })
    | .error b script => (.breach b, { d with script })

/-- Answers requests one after the other. -/
def serve (d : Dialogue) : List Request → List Answer × Dialogue
  | [] => ([], d)
  | q :: qs =>
    ((d.answer q).1 :: ((d.answer q).2.serve qs).1, ((d.answer q).2.serve qs).2)

variable {d : Dialogue} {q : Request} {qs : List Request}

theorem serve_append (d : Dialogue) (qs qs' : List Request) : d.serve (qs ++ qs') =
    ((d.serve qs).1 ++ ((d.serve qs).2.serve qs').1, ((d.serve qs).2.serve qs').2) := by
  induction qs generalizing d with
  | nil => rfl
  | cons q qs ih =>
    rw [List.cons_append, serve, serve, ih]
    rfl

theorem serve_concat (d : Dialogue) (qs : List Request) (q : Request) :
    d.serve (qs ++ [q]) =
      ((d.serve qs).1 ++ [((d.serve qs).2.answer q).1], ((d.serve qs).2.answer q).2) := by
  rw [serve_append]
  rfl

/-- For the requests `qs` a statement is evaluated, with the bindings `b`: the one in front of which
`s` stands. -/
def Meets (d : Dialogue) (qs : List Request) (b : Bindings) (s : Script) : Prop :=
  s.Due ∧ ∃ before, before ++ [.next] <+: qs ∧
    Rounds (fun _ => .int 0) (d.serve before).2.bindings (d.serve before).2.script b s

/-! ### Single answers -/

/-- The next output is what the loop of the script ends with. -/
theorem exists_rounds_answer (hs : d.script.Sound) :
    ∃ b' t, Rounds (fun _ => .int 0) d.bindings d.script b' t ∧ ¬t.Due ∧
      d.answer .next = (.pulled t.handOver.1, ⟨t.handOver.2, b'⟩) := by
  obtain ⟨b', t, hr, hd, hn⟩ := Script.exists_rounds hs (fun _ => .int 0) d.bindings
  exact ⟨b', t, hr, hd, by rw [answer, hn]⟩

theorem answer_next_of_rounds {b' : Bindings} {t : Script} (hs : d.script.Sound)
    (h : Rounds (fun _ => .int 0) d.bindings d.script b' t) (hd : ¬t.Due) :
    d.answer .next = (.pulled t.handOver.1, ⟨t.handOver.2, b'⟩) := by
  obtain ⟨b₂, t₂, h₂, hd₂, ha⟩ := exists_rounds_answer hs
  obtain ⟨rfl, rfl⟩ := h.unique h₂ hd hd₂
  exact ha

theorem answer_recover_of_false (h : d.script.halted = false ∨ d.script.finished = true) :
    d.answer .recover = (.recovered false, d) := by
  rw [answer, Feed.recover_eq_false h]

/-- Recovering makes the moves of skipping what is left of the row. -/
theorem exists_answer_recover (hs : d.script.Sound) (hh : d.script.halted = true)
    (hf : d.script.finished = false) {body rest : List Token} (stop : LineEnd)
    (ha : d.script.ahead = body ++ stop.1 :: rest) (hb : ∀ t ∈ body, t.kind.endsLine = false) :
    Progress d.script.pardoned (Feed.skipMoves body stop)
      (d.script.pardoned.acts (Feed.skipMoves body stop)) ∧
    d.answer .recover = (.recovered true, { d with script := d.script.resumed body stop }) := by
  obtain ⟨s', hr, p⟩ := Feed.recover_eq hs.room hh hf stop ha hb
  obtain rfl := p.acts
  refine ⟨p, ?_⟩
  rw [answer, hr]
  rfl

theorem answer_recover_cases (hs : d.script.Sound) :
    d.answer .recover = (.recovered false, d) ∨
    d.script.halted = true ∧ d.script.finished = false ∧
      ∃ (body rest : List Token) (stop : LineEnd), d.script.ahead = body ++ stop.1 :: rest ∧
        (∀ t ∈ body, t.kind.endsLine = false) ∧
        Progress d.script.pardoned (Feed.skipMoves body stop)
          (d.script.pardoned.acts (Feed.skipMoves body stop)) ∧
        d.answer .recover = (.recovered true, { d with script := d.script.resumed body stop }) := by
  by_cases h : d.script.halted = false ∨ d.script.finished = true
  · exact .inl (answer_recover_of_false h)
  · simp only [not_or, Bool.not_eq_false, Bool.not_eq_true] at h
    obtain ⟨row, rest, ha, body, stop, rfl, hstop, hb⟩ := hs.exists_row
    have ha : d.script.ahead = body ++ stop :: rest := by simpa using ha
    obtain ⟨p, hr⟩ := exists_answer_recover hs h.1 h.2 ⟨stop, hstop⟩ ha hb
    exact .inr ⟨h.1, h.2, body, rest, ⟨stop, hstop⟩, ha, hb, p, hr⟩

theorem sound_answer (hs : d.script.Sound) (q : Request) : (d.answer q).2.script.Sound := by
  cases q with
  | next =>
    obtain ⟨b', t, hr, -, hn⟩ := exists_rounds_answer hs
    rw [hn]
    exact (hr.sound hs).handOver
  | recover =>
    rcases answer_recover_cases hs with h | ⟨-, -, body, rest, stop, -, -, p, h⟩
    · rw [h]
      exact hs
    · have hs₂ := hs.pardoned.progress p
      rw [h]
      exact ⟨hs₂.ends, hs₂.wellFormed, hs₂.lexical, hs₂.room⟩

theorem sound_serve (hs : d.script.Sound) (qs : List Request) : (d.serve qs).2.script.Sound := by
  induction qs generalizing d with
  | nil => exact hs
  | cons q qs ih => exact ih (sound_answer hs q)

/-- What waits is handed over by as many requests, in its order. -/
theorem serve_queue (d : Dialogue) : d.serve (List.replicate d.script.queue.length .next) =
    (d.script.queue.map fun o => .pulled (.output o), { d with script := d.script.flushed }) := by
  obtain ⟨s, b⟩ := d
  induction hq : s.queue generalizing s with
  | nil =>
    have hs : s.flushed = s := by rw [Script.flushed, ← hq]
    show ([], Dialogue.mk s b) = ([], Dialogue.mk s.flushed b)
    rw [hs]
  | cons o rest ih =>
    have ha : answer ⟨s, b⟩ .next = (.pulled (.output o), ⟨{ s with queue := rest }, b⟩) := by
      rw [answer, Script.next, Script.pull, hq]
    rw [List.length_cons, List.replicate_succ, serve, ha]
    have := ih { s with queue := rest } rfl
    rw [this]
    rfl

end Dialogue

/-! ### What is left of earlier statements -/

namespace Script

/-- The script with other remains of an earlier statement. -/
def stale (s : Script) (fault : Option Diagnostic) (depth : Nat) : Script := { s with fault, depth }

variable {s : Script} {fault : Option Diagnostic} {depth : Nat}

theorem statement_stale (scope : Scope) (s : Script) (fault : Option Diagnostic) (depth : Nat) :
    Eval.statement scope (s.stale fault depth) = Eval.statement scope s := rfl

theorem absorb_stale (s : Script) (r : Reading) :
    (s.stale fault depth).absorb r = (s.absorb r).stale fault depth := by
  obtain ⟨chunks, item⟩ := r
  cases item <;> rfl

theorem fillFrom_stale (n : Nat) (rs : List Reading) (s : Script) :
    (s.stale fault depth).fillFrom n rs = (s.fillFrom n rs).map (stale · fault depth) := by
  induction rs generalizing s with
  | nil =>
    show s.lookahead.getLast?.map _ = (s.lookahead.getLast?.map _).map _
    rw [Option.map_map]
    rfl
  | cons r rs ih =>
    rw [fillFrom, fillFrom]
    by_cases hn : n < s.lookahead.length
    · rw [if_pos hn, if_pos (show n < (s.stale fault depth).lookahead.length from hn)]
      rfl
    · rw [if_neg hn, if_neg (show ¬n < (s.stale fault depth).lookahead.length from hn),
        absorb_stale, ih]

theorem getD_fillFrom_stale (n : Nat) (s : Script) :
    ((s.stale fault depth).fillFrom n s.unread).getD (s.stale fault depth) =
      ((s.fillFrom n s.unread).getD s).stale fault depth := by
  rw [fillFrom_stale]
  cases s.fillFrom n s.unread <;> rfl

theorem acts_skipMoves_stale (body : List Token) (stop : LineEnd) (s : Script)
    (fault : Option Diagnostic) (depth : Nat) :
    (s.stale fault depth).acts (Feed.skipMoves body stop) =
      (s.acts (Feed.skipMoves body stop)).stale fault depth := by
  have hlook : ∀ s : Script, (s.stale fault depth).act (.look 0) =
      (s.act (.look 0)).stale fault depth := fun s => getD_fillFrom_stale 0 s
  have htake : ∀ (t : Token) (s : Script), (s.stale fault depth).act (.take t) =
      (s.act (.take t)).stale fault depth := fun t s =>
    congrArg (shift · t) (getD_fillFrom_stale 0 s)
  induction body generalizing s with
  | nil =>
    show (s.stale fault depth).acts stop.moves = (s.acts stop.moves).stale fault depth
    unfold LineEnd.moves
    split
    · rw [acts_cons, acts_cons, acts_nil, acts_cons, acts_cons, acts_nil, hlook, htake]
    · rw [acts_cons, acts_nil, acts_cons, acts_nil, hlook]
  | cons t body ih =>
    show (s.stale fault depth).acts (.look 0 :: .take t :: Feed.skipMoves body stop) =
      (s.acts (.look 0 :: .take t :: Feed.skipMoves body stop)).stale fault depth
    rw [acts_cons, acts_cons, acts_cons, acts_cons, hlook, htake, ih]

theorem handOver_stale (s : Script) : (s.stale fault depth).handOver =
    (s.handOver.1, s.handOver.2.stale fault depth) := by
  rcases s.handOver_cases with ⟨o, rest, hq, ho⟩ | ⟨d, hq, hf, ho⟩ | ⟨hq, hf, ho⟩
  · rw [ho, handOver_output (s := s.stale fault depth) hq]
    rfl
  · rw [ho, handOver_failure (s := s.stale fault depth) hq hf]
    rfl
  · rw [ho, handOver_nothing (s := s.stale fault depth) hq hf]

end Script

theorem Script.Sound.exists_statement_end {s : Script} {stop : Token} (hs : s.Sound) (scope : Scope)
    (ha : s.ahead = [stop]) :
    ∃ t, Eval.statement scope s = .ok none t ∧ Progress s [.clear, .look 0] t := by
  have hk : stop.kind = .endOfInput := by
    obtain ⟨before, last, he, hk, -⟩ := hs.ends
    rw [ha] at he
    obtain ⟨-, hl⟩ := List.append_inj' (show [] ++ [stop] = before ++ [last] from he) rfl
    rwa [List.singleton_inj.mp hl]
  have hn : stop.kind ≠ .newLine := by simp [hk]
  let l : Line := .blank ⟨stop, by rw [hk]; rfl⟩
  obtain ⟨t, ht, p, -⟩ := Eval.yields_statement scope l (show s.ahead = l.tokens ++ [] from ha)
    hs.room (Nat.zero_le _)
  rw [Line.result, if_neg hn] at ht
  rw [Line.moves, LineEnd.moves, if_neg hn] at p
  exact ⟨t, ht, p⟩

namespace Dialogue

variable {d : Dialogue}

/-- The dialogue with other remains of an earlier statement. -/
def stale (d : Dialogue) (fault : Option Diagnostic) (depth : Nat) : Dialogue :=
  { d with script := d.script.stale fault depth }

theorem answer_stale (hs : d.script.Sound) (q : Request) (fault : Option Diagnostic) (depth : Nat) :
    ∃ fault' depth', (d.stale fault depth).answer q =
      ((d.answer q).1, (d.answer q).2.stale fault' depth') := by
  cases q with
  | next =>
    by_cases hd : d.script.Due
    · -- the statement that is due starts by clearing them away
      have hd' : (d.script.stale fault depth).Due := ⟨hd.queue, hd.failure, hd.halted⟩
      have hn : (d.script.stale fault depth).next (fun _ => .int 0) d.bindings =
          d.script.next (fun _ => .int 0) d.bindings := by
        rw [Script.next, Script.next]
        show Script.pull _ (d.script.size + 1 + 1) _ _ = _
        rw [Script.pull_of_due hd', Script.pull_of_due hd, Script.statement_stale]
      refine ⟨(d.answer .next).2.script.fault, (d.answer .next).2.script.depth, ?_⟩
      show answer ⟨d.script.stale fault depth, d.bindings⟩ .next = d.answer .next
      rw [answer, answer, hn]
    · have hd' : ¬(d.script.stale fault depth).Due :=
        fun h => hd ⟨h.queue, h.failure, h.halted⟩
      refine ⟨fault, depth, ?_⟩
      show answer ⟨d.script.stale fault depth, d.bindings⟩ .next = _
      rw [answer, answer, Script.next, Script.next, Script.pull_of_not_due hd',
        Script.pull_of_not_due hd, Script.handOver_stale]
      rfl
  | recover =>
    have hs' : (d.script.stale fault depth).Sound := ⟨hs.ends, hs.wellFormed, hs.lexical, hs.room⟩
    refine ⟨fault, depth, ?_⟩
    by_cases h : d.script.halted = false ∨ d.script.finished = true
    · have h' : (d.stale fault depth).script.halted = false ∨
        (d.stale fault depth).script.finished = true := h
      rw [answer_recover_of_false h, answer_recover_of_false h']
    · simp only [not_or, Bool.not_eq_false, Bool.not_eq_true] at h
      obtain ⟨row, rest, ha, body, stop, rfl, hstop, hb⟩ := hs.exists_row
      have ha : d.script.ahead = body ++ stop :: rest := by simpa using ha
      obtain ⟨-, hr⟩ := exists_answer_recover hs h.1 h.2 ⟨stop, hstop⟩ ha hb
      obtain ⟨-, hr'⟩ := exists_answer_recover (d := d.stale fault depth) hs' h.1 h.2
        ⟨stop, hstop⟩ ha hb
      have hacts := Script.acts_skipMoves_stale body ⟨stop, hstop⟩ d.script.pardoned fault depth
      rw [hr, hr']
      show (_, Dialogue.mk { (d.script.pardoned.stale fault depth).acts _ with halted := false } _) = _
      rw [hacts]
      rfl

/-- No answer depends on what an earlier statement left behind. -/
theorem serve_stale (hs : d.script.Sound) (fault : Option Diagnostic) (depth : Nat)
    (qs : List Request) : ((d.stale fault depth).serve qs).1 = (d.serve qs).1 ∧
      ((d.stale fault depth).serve qs).2.bindings = (d.serve qs).2.bindings := by
  induction qs generalizing d fault depth with
  | nil => exact ⟨rfl, rfl⟩
  | cons q qs ih =>
    obtain ⟨fault', depth', h⟩ := answer_stale hs q fault depth
    obtain ⟨h₁, h₂⟩ := ih (sound_answer hs q) fault' depth'
    rw [serve, serve, h]
    refine ⟨?_, h₂⟩
    show (d.answer q).1 :: _ = (d.answer q).1 :: _
    rw [h₁]

end Dialogue

/-! ### Further down -/

/-- What is pulled, with its place `k` lines further down. -/
def Pulled.down (k : Nat) : Pulled → Pulled
  | .output o => .output (o.down k)
  | .failure d => .failure (d.down k)
  | .nothing => .nothing
  | .breach b => .breach b

/-- An answer, with its place `k` lines further down. -/
def Dialogue.Answer.down (k : Nat) : Answer → Answer
  | .pulled p => .pulled (p.down k)
  | .recovered r => .recovered r
  | .breach b => .breach b

theorem Displaced.halt {x : Displacement} {s s' : Script} (h : Displaced x s s') (d : Diagnostic) :
    Displaced x (s.halt d) (s'.halt (d.down x.lines)) := { h with halted := rfl, failure := rfl }

namespace Script

variable {x : Displacement} {s s' t : Script} {standIn : Span → Number} {b b' : Bindings}

theorem Due.displaced (hd : s.Due) (h : Displaced x s s') : s'.Due where
  queue := by rw [h.queue, hd.queue]; rfl
  failure := by rw [h.failure, hd.failure]; rfl
  halted := h.halted.trans hd.halted

theorem due_of_displaced (hd : s'.Due) (h : Displaced x s s') : s.Due where
  queue := by
    have := hd.queue
    rwa [h.queue, List.map_eq_nil_iff] at this
  failure := by
    have := hd.failure
    rwa [h.failure, Option.map_eq_none_iff] at this
  halted := h.halted.symm.trans hd.halted

theorem handOver_displaced (h : Displaced x s s') :
    s'.handOver.1 = s.handOver.1.down x.lines ∧ Displaced x s.handOver.2 s'.handOver.2 := by
  have hq' := h.queue
  have hf' := h.failure
  rcases s.handOver_cases with ⟨o, rest, hq, ho⟩ | ⟨d, hq, hf, ho⟩ | ⟨hq, hf, ho⟩
  · rw [hq] at hq'
    rw [ho, handOver_output hq']
    exact ⟨rfl, { h with queue := rfl }⟩
  · rw [hq] at hq'
    rw [hf] at hf'
    rw [ho, handOver_failure hq' hf']
    exact ⟨rfl, { h with failure := rfl }⟩
  · rw [hq] at hq'
    rw [hf] at hf'
    rw [ho, handOver_nothing hq' hf']
    exact ⟨rfl, h⟩

/-- Pulling further down, with no fewer turns than are needed. -/
theorem pull_displaced (hi : ∀ p, standIn (p.down x.lines) = standIn p) (h : Displaced x s s')
    {turns turns' : Nat} (ht : turns ≤ turns') {p : Pulled}
    (hp : s.pull standIn turns b = (p, b', t)) (hb : ∀ y, p ≠ .breach y) :
    ∃ t', s'.pull standIn turns' b = (p.down x.lines, b', t') ∧ Displaced x t t' := by
  induction turns generalizing turns' s s' b with
  | zero =>
    cases hp
    exact absurd rfl (hb _)
  | succ turns ih =>
    obtain ⟨turns', rfl⟩ : ∃ n, turns' = n + 1 := ⟨turns' - 1, by omega⟩
    have ht : turns ≤ turns' := by omega
    -- one is due where the other is; the statements go alike, and what is handed over is the same
    by_cases hd : s.Due
    · have hst := Eval.statement_displaced ⟨b, standIn⟩ hi h
      rw [pull_of_due hd] at hp
      rw [pull_of_due (hd.displaced h)]
      cases he : Eval.statement ⟨b, standIn⟩ s with
      | ok r u =>
        rw [he] at hp hst
        obtain ⟨u', hu, hd'⟩ := hst
        rw [hu]
        cases r with
        | some b₁ => exact ih hd' ht hp
        | none => exact ih hd'.finish ht hp
      | error e u =>
        rw [he] at hp hst
        cases e with
        | fatal y =>
          obtain ⟨u', hu, hd'⟩ := hst
          rw [hu]
          exact ih (hd'.halt y) ht hp
        | breach y =>
          cases hp
          exact absurd rfl (hb y)
    · have hd' : ¬s'.Due := fun hd' => hd (due_of_displaced hd' h)
      rw [pull_of_not_due hd] at hp
      rw [pull_of_not_due hd']
      cases hp
      obtain ⟨h₁, h₂⟩ := handOver_displaced h
      exact ⟨_, by rw [h₁], h₂⟩

end Script

namespace Dialogue

variable {x : Displacement} {d d' : Dialogue}

theorem answer_displaced (hs : d.script.Sound) (h : Displaced x d.script d'.script)
    (hb : d'.bindings = d.bindings) (q : Request) :
    (d'.answer q).1 = (d.answer q).1.down x.lines ∧
      Displaced x (d.answer q).2.script (d'.answer q).2.script ∧
      (d'.answer q).2.bindings = (d.answer q).2.bindings := by
  obtain ⟨s, b⟩ := d
  obtain ⟨s', b'⟩ := d'
  obtain rfl : b' = b := hb
  cases q with
  | next =>
    obtain ⟨p, b₁, t, hp, hn, -⟩ := Script.next_sound hs (fun _ => .int 0) b'
    obtain ⟨t', hp', hd⟩ := Script.pull_displaced (fun _ => rfl) h
      (Nat.add_le_add_right h.size 2) hp hn
    rw [answer, answer, hp, Script.next, hp']
    exact ⟨rfl, hd, rfl⟩
  | recover =>
    obtain ⟨r, t, hr, -⟩ := Feed.recover_sound hs
    obtain ⟨t', hr', hd⟩ := Feed.recover_displaced h hr
    rw [answer, answer, hr, hr']
    exact ⟨rfl, hd, rfl⟩

theorem serve_displaced (hs : d.script.Sound) (h : Displaced x d.script d'.script)
    (hb : d'.bindings = d.bindings) (qs : List Request) :
    (d'.serve qs).1 = (d.serve qs).1.map (Answer.down x.lines) ∧
      (d'.serve qs).2.bindings = (d.serve qs).2.bindings := by
  induction qs generalizing d d' with
  | nil => exact ⟨rfl, hb⟩
  | cons q qs ih =>
    obtain ⟨h₁, h₂, h₃⟩ := answer_displaced hs h hb q
    obtain ⟨ih₁, ih₂⟩ := ih (sound_answer hs q) h₂ h₃
    rw [serve, serve]
    refine ⟨?_, ih₂⟩
    show (d'.answer q).1 :: _ = (d.answer q).1.down x.lines :: _
    rw [h₁, ih₁]

/-! ### Where nothing more comes -/

/-- The answer when there is nothing more. -/
def idle : Request → Answer
  | .next => .pulled .nothing
  | .recover => .recovered false

theorem answer_next_of_not_due (h : ¬d.script.Due) :
    d.answer .next = (.pulled d.script.handOver.1, { d with script := d.script.handOver.2 }) := by
  rw [answer, Script.next, Script.pull_of_not_due h]

theorem answer_next_of_halted (hq : d.script.queue = []) (hf : d.script.failure = none)
    (hh : d.script.halted = true) : d.answer .next = (.pulled .nothing, d) := by
  rw [answer_next_of_not_due (Script.not_due_of_halted hh), Script.handOver_nothing hq hf]

/-- At the end of the input, when everything was handed over, nothing more comes and nothing
changes. -/
theorem serve_of_finished (hq : d.script.queue = []) (hf : d.script.failure = none)
    (hh : d.script.halted = true) (hn : d.script.finished = true) (qs : List Request) :
    d.serve qs = (qs.map idle, d) := by
  induction qs with
  | nil => rfl
  | cons q qs ih =>
    have ha : d.answer q = (idle q, d) := by
      cases q with
      | next => exact answer_next_of_halted hq hf hh
      | recover => exact answer_recover_of_false (.inr hn)
    rw [serve, ha, ih]
    rfl

/-- Only the end of the input is ahead, whether it has been reached or not, and nothing waits. -/
structure Exhausted (s : Script) : Prop where
  ahead : ∃ stop, s.ahead = [stop]
  queue : s.queue = []
  failure : s.failure = none
  halted : s.halted = s.finished
  /-- No lexical diagnostic is left to be read. -/
  unread : Reading.diagnostics s.unread = []

theorem Exhausted.next {s : Script} (h : Exhausted s) (hs : s.Sound) (hh : s.halted = false)
    (standIn : Span → Number) (b : Bindings) :
    ∃ t : Script, s.next standIn b = (.nothing, b, t) ∧ t.queue = [] ∧ t.failure = none ∧
      t.halted = true ∧ t.finished = true := by
  obtain ⟨stop, ha⟩ := h.ahead
  obtain ⟨t, ht, p⟩ := hs.exists_statement_end ⟨b, standIn⟩ ha
  -- reading on to the end puts nothing out
  have hlen := p.length_queue hs.lexical
  rw [h.queue, h.unread] at hlen
  have hq : t.finish.queue = [] :=
    List.eq_nil_of_length_eq_zero (Nat.eq_zero_of_add_eq_zero_right hlen)
  have hf : t.finish.failure = none := p.failure.trans h.failure
  have hp : t.finish.pull standIn (s.size + 1) b = (.nothing, b, t.finish) := by
    rw [Script.pull_of_not_due (Script.not_due_of_halted rfl), Script.handOver_nothing hq hf]
  refine ⟨t.finish, ?_, hq, hf, rfl, rfl⟩
  rw [Script.next, Script.pull_of_due ⟨h.queue, h.failure, hh⟩, ht]
  exact hp

/-- Where only the end of the input is ahead, nothing more comes. -/
theorem serve_of_exhausted (hs : d.script.Sound) (h : Exhausted d.script) (qs : List Request) :
    (d.serve qs).1 = qs.map idle ∧ (d.serve qs).2.bindings = d.bindings := by
  induction qs generalizing d with
  | nil => exact ⟨rfl, rfl⟩
  | cons q qs ih =>
    cases hn : d.script.finished with
    | true =>
      have := serve_of_finished h.queue h.failure (h.halted.trans hn) hn (q :: qs)
      rw [this]
      exact ⟨rfl, rfl⟩
    | false =>
      have hh : d.script.halted = false := h.halted.trans hn
      cases q with
      | recover =>
        have ha := answer_recover_of_false (.inl hh)
        obtain ⟨h₁, h₂⟩ := ih hs h
        rw [serve, ha]
        exact ⟨congrArg _ h₁, h₂⟩
      | next =>
        -- the first request for an output finishes the script, and then nothing changes any more
        obtain ⟨t, ht, hq, hf, hh', hn'⟩ := h.next hs hh (fun _ => .int 0) d.bindings
        have hd : d.answer .next = (.pulled .nothing, ⟨t, d.bindings⟩) := by
          rw [answer, ht]
        have hlast := serve_of_finished (d := ⟨t, d.bindings⟩) hq hf hh' hn' qs
        rw [serve, hd, hlast]
        exact ⟨rfl, rfl⟩

end Dialogue

end LineCalc
