import LineCalc.Proofs.Grammar.Quiet
import LineCalc.Proofs.Requests.Dialogue

/-!
# What is handed over, and when

Everything that comes out of a script is in its log. What was handed over, what waits in the queue
and the fatal diagnostic behind it are together what the log tells, in its order, as long as nobody
recovers before the fatal diagnostic was handed over. The flags of a script say whether there is
anything more to come: `Flags` tells them from the answers alone.
-/

namespace LineCalc

open Grammar Move

/-! ### What the log tells -/

/-- What is to be handed over because of an event. -/
def Event.pulled? : Event → Option Pulled
  | .diagnostic d => some (.output (.diagnostic d))
  | .result value => some (.output (.value value))
  | .halted d => some (.failure d)
  | _ => none

theorem Event.pulled?_of_trace {e : Event} (h : e.level = .trace) : e.pulled? = none := by
  cases e <;> first | rfl | cases h

/-- The move puts nothing into the log that is to be handed over, but by putting it out. -/
def Move.Plain : Move → Prop
  | .note e => e.pulled? = none
  | _ => True

theorem Move.Quiet.plain {x : Move} (h : x.Quiet) : x.Plain := by
  cases x with
  | note e => exact Event.pulled?_of_trace h
  | _ => trivial

namespace Grammar

theorem Line.plain_moves (scope : Scope) (l : Line) : ∀ x ∈ l.moves scope, x.Plain := by
  rw [l.moves_eq, List.forall_mem_append]
  refine ⟨fun x hx => (l.quiet_reading scope x hx).plain, ?_⟩
  cases l with
  | blank stop =>
    intro x hx
    cases hx
  | full c stop =>
    rw [verdict, Content.verdict]
    split <;> simp [Plain, Event.pulled?]

theorem plain_skipMoves (body : List Token) (stop : LineEnd) :
    ∀ x ∈ Feed.skipMoves body stop, x.Plain := by
  intro x hx
  rcases List.mem_append.mp hx with hx | hx
  · obtain ⟨t, -, hx⟩ := List.mem_flatMap.mp hx
    simp only [List.mem_cons, List.not_mem_nil, or_false] at hx
    rcases hx with rfl | rfl
    · trivial
    · trivial
  · exact (stop.quiet_moves x hx).plain

end Grammar

namespace Script

variable {s s' : Script} {m : List Move}

/-- What was to be handed over so far, in its order. -/
def told (s : Script) : List Pulled := s.log.reverse.filterMap Event.pulled?

theorem told_logged (s : Script) (e : Event) :
    (s.logged e).told = s.told ++ e.pulled?.toList := by
  show (e :: s.log).reverse.filterMap Event.pulled? = _
  rw [List.reverse_cons, List.filterMap_append]
  cases h : e.pulled? <;> simp [told, h]

/-- `s'` has told more than `s`, and has put just that into the queue. -/
def Tells (s s' : Script) : Prop :=
  ∃ new, s'.told = s.told ++ new.map .output ∧ s'.queue = s.queue ++ new

theorem Tells.refl (s : Script) : s.Tells s := ⟨[], by simp, by simp⟩

theorem Tells.trans {s₁ s₂ s₃ : Script} (h₁ : s₁.Tells s₂) (h₂ : s₂.Tells s₃) : s₁.Tells s₃ := by
  obtain ⟨new₁, t₁, q₁⟩ := h₁
  obtain ⟨new₂, t₂, q₂⟩ := h₂
  refine ⟨new₁ ++ new₂, ?_, ?_⟩
  · rw [t₂, t₁, List.map_append, List.append_assoc]
  · rw [q₂, q₁, List.append_assoc]

theorem tells_of_log {e : Event} (h : e.pulled? = none) (hl : s'.log = e :: s.log)
    (hq : s'.queue = s.queue) : s.Tells s' := by
  refine ⟨[], ?_, by rw [hq, List.append_nil]⟩
  have := told_logged s e
  rw [h] at this
  show s'.log.reverse.filterMap _ = _
  rw [hl]
  exact this

theorem tells_report (s : Script) (d : Diagnostic) : s.Tells (s.report d) :=
  ⟨[.diagnostic d], told_logged s (.diagnostic d), rfl⟩

theorem tells_absorb (s : Script) (r : Reading) : s.Tells (s.absorb r) := by
  obtain ⟨chunks, item⟩ := r
  -- the chunks are put into the log, and none of them is to be handed over
  have hchunks : ∀ tally, s.Tells { s with
      readTally := tally
      log := (chunks.map Chunk.event).reverse ++ s.log } := by
    intro tally
    refine ⟨[], ?_, (List.append_nil _).symm⟩
    show ((chunks.map Chunk.event).reverse ++ s.log).reverse.filterMap _ = _
    have hnone : (chunks.map Chunk.event).filterMap Event.pulled? = [] := by
      rw [List.filterMap_eq_nil_iff]
      intro e he
      obtain ⟨chunk, -, rfl⟩ := List.mem_map.mp he
      unfold Chunk.event
      split <;> rfl
    rw [List.reverse_append, List.reverse_reverse, List.filterMap_append, hnone]
    rfl
  cases item with
  | ok t => exact hchunks (s.readTally + Reading.tally ⟨chunks, .ok t⟩)
  | error d => exact (hchunks _).trans (tells_report _ d)

theorem tells_fillFrom {n : Nat} {rs : List Reading} (h : s.fillFrom n rs = some s') :
    s.Tells s' := by
  induction rs generalizing s with
  | nil =>
    obtain ⟨last, -, rfl⟩ := Option.map_eq_some_iff.mp h
    exact ⟨[], by simp [told], by simp⟩
  | cons r rs ih =>
    rw [fillFrom] at h
    split at h
    · obtain rfl := Option.some.inj h
      exact ⟨[], by simp [told], by simp⟩
    · exact (tells_absorb s r).trans (ih h)

theorem tells_fill (n : Nat) (s : Script) : s.Tells ((s.fillFrom n s.unread).getD s) := by
  cases h : s.fillFrom n s.unread with
  | none => exact Tells.refl s
  | some t => exact tells_fillFrom h

theorem tells_act {x : Move} (hx : x.Plain) (s : Script) : s.Tells (s.act x) := by
  cases x with
  | look n => exact tells_fill n s
  | take t => exact (tells_fill 0 s).trans (tells_of_log (e := .shift t.kind t.lexeme) rfl rfl rfl)
  | report d => exact tells_report s d
  | print value => exact ⟨[.value value], told_logged s (.result value), rfl⟩
  | note e => exact tells_of_log hx rfl rfl
  | blame | forgive | enter | leave | clear | count =>
    exact ⟨[], (List.append_nil _).symm, (List.append_nil _).symm⟩

/-- Moves tell what they put out, and nothing else. -/
theorem tells_acts (hm : ∀ x ∈ m, x.Plain) (s : Script) : s.Tells (s.acts m) := by
  induction m generalizing s with
  | nil => exact Tells.refl s
  | cons x m ih =>
    rw [List.forall_mem_cons] at hm
    exact (tells_act hm.1 s).trans (ih hm.2 _)

end Script

namespace Dialogue

variable {d : Dialogue} {qs : List Request} {as : List Answer}

/-- What an answer hands over. -/
def Answer.handed? : Answer → Option Pulled
  | .pulled (.output o) => some (.output o)
  | .pulled (.failure d) => some (.failure d)
  | _ => none

/-- What waits to be handed over. -/
def waiting (s : Script) : List Pulled :=
  s.queue.map .output ++ s.failure.toList.map .failure

/-- What the log tells was handed over by the answers, or waits. -/
def Delivered (as : List Answer) (s : Script) : Prop :=
  s.told = as.filterMap Answer.handed? ++ waiting s

/-- Nobody recovers while a fatal diagnostic waits. -/
def Orderly (d : Dialogue) : List Request → Prop
  | [] => True
  | q :: qs => (q = .recover → d.script.failure = none) ∧ (d.answer q).2.Orderly qs

/-- A turn of the loop tells what is waiting behind it, and nothing else. -/
theorem told_round {standIn : Span → Number} {b b' : Bindings} {s t : Script} (hs : s.Sound)
    (hr : Round standIn b s b' t) : t.told = s.told ++ waiting t := by
  have hdue := hr.due
  -- what the statement put into the queue is what it told
  have key : ∀ {u : Script}, s.Tells u → u.failure = s.failure →
      u.failure = none ∧ u.told = s.told ++ u.queue.map .output := by
    rintro u ⟨new, ht, hq⟩ hf
    rw [ht, hq, hdue.queue, List.nil_append]
    exact ⟨hf.trans hdue.failure, rfl⟩
  obtain ⟨row, rest, ha, hrow⟩ := hs.exists_row
  rcases hr.row_cases hs ha hrow with ⟨l, -, -, p, ht⟩ | ⟨x, -, -, p, -, rfl⟩
  · obtain ⟨hf, hd⟩ := key (Script.tells_acts (l.plain_moves ⟨b, standIn⟩) s) p.failure
    have hw : waiting (s.acts (l.moves ⟨b, standIn⟩)) =
        (s.acts (l.moves ⟨b, standIn⟩)).queue.map .output := by
      rw [waiting, hf]
      exact List.append_nil _
    rcases ht with ⟨-, rfl⟩ | ⟨-, -, rfl⟩
    · rw [hd, hw]
    · exact hd.trans (congrArg (s.told ++ ·) hw.symm)
  · have hm : ∀ y ∈ x.moves ⟨b, standIn⟩, y.Plain :=
      fun y hy => (x.quiet_moves ⟨b, standIn⟩ y hy).plain
    obtain ⟨-, hd⟩ := key (Script.tells_acts hm s) p.failure
    generalize s.acts (x.moves ⟨b, standIn⟩) = u at hd
    have ht : (u.halt x.diagnostic).told = u.told ++ [.failure x.diagnostic] :=
      Script.told_logged u (.halted x.diagnostic)
    rw [ht, hd, List.append_assoc]
    rfl

theorem delivered_round {b b' : Bindings} {s t : Script} (hs : s.Sound)
    (hr : Round (fun _ => .int 0) b s b' t) (h : Delivered as s) : Delivered as t := by
  have hnone : waiting s = [] := by rw [waiting, hr.due.queue, hr.due.failure]; rfl
  rw [Delivered, hnone, List.append_nil] at h
  rw [Delivered, told_round hs hr, h]

theorem delivered_handOver {s : Script} (h : Delivered as s) :
    Delivered (as ++ [.pulled s.handOver.1]) s.handOver.2 := by
  rw [Delivered, waiting] at h
  rw [Delivered, waiting, List.filterMap_append]
  rcases s.handOver_cases with ⟨o, rest, hq, ho⟩ | ⟨e, hq, hf, ho⟩ | ⟨hq, hf, ho⟩
  · rw [ho]
    show s.told = _
    rw [h, hq]
    simp [Answer.handed?]
  · rw [ho]
    show s.told = _
    rw [h, hq, hf]
    simp [Answer.handed?]
  · rw [ho, h, hq, hf]
    simp [Answer.handed?]

theorem delivered_answer (hs : d.script.Sound) {q : Request}
    (hq : q = .recover → d.script.failure = none) (h : Delivered as d.script) :
    Delivered (as ++ [(d.answer q).1]) (d.answer q).2.script := by
  cases q with
  | next =>
    obtain ⟨b', t, hr, -, hn⟩ := exists_rounds_answer hs
    rw [hn]
    exact delivered_handOver (hr.induct (P := fun _ s => Delivered as s) hs
      (fun hs hr h => delivered_round hs hr h) h)
  | recover =>
    have hf := hq rfl
    rcases answer_recover_cases hs with hr | ⟨-, -, body, rest, stop, -, -, p, hr⟩
    · rw [hr, Delivered, List.filterMap_append, h]
      simp [Answer.handed?]
    · rw [hr, Delivered, List.filterMap_append]
      rw [Delivered, waiting, hf] at h
      obtain ⟨new, ht, hqueue⟩ := Script.tells_acts (plain_skipMoves body stop) d.script.pardoned
      have ht' : (d.script.resumed body stop).told = d.script.told ++ new.map .output := ht
      have hqueue' : (d.script.resumed body stop).queue = d.script.queue ++ new := hqueue
      have hfail : (d.script.resumed body stop).failure = none := p.failure
      rw [ht', h, waiting, hqueue', hfail]
      simp [Answer.handed?]

/-- What comes out of a text is handed over exactly once and in its order, or waits. -/
theorem delivered_serve (hs : d.script.Sound) (ho : d.Orderly qs) (h : Delivered as d.script) :
    Delivered (as ++ (d.serve qs).1) (d.serve qs).2.script := by
  induction qs generalizing d as with
  | nil => simpa [serve] using h
  | cons q qs ih =>
    obtain ⟨hq, ho⟩ := ho
    have := ih (sound_answer hs q) ho (delivered_answer hs hq h)
    rw [List.append_assoc] at this
    exact this

/-! ### What the answers tell of the flags -/

/-- Has a fatal diagnostic been handed over since the script went on, if it had before the answer? -/
def Answer.fails (failing : Bool) : Answer → Bool
  | .pulled (.failure _) => true
  | .recovered true => false
  | _ => failing

/-- Has a fatal diagnostic been handed over, and nobody recovered since? -/
def failing (as : List Answer) : Bool := as.foldl Answer.fails false

theorem failing_concat (as : List Answer) (a : Answer) :
    failing (as ++ [a]) = a.fails (failing as) := by
  rw [failing, List.foldl_append]
  rfl

/-- What the flags of a script are, given whether it is failing. -/
structure Flags (f : Bool) (s : Script) : Prop where
  finished : s.finished = true → s.halted = true ∧ s.failure = none
  failure : s.failure ≠ none → s.halted = true
  fails : f = true ↔ s.halted = true ∧ s.finished = false ∧ s.failure = none
  queue : f = true → s.queue = []

theorem flags_of_failed {s : Script} (hq : s.queue = []) (hf : s.failure = none)
    (hh : s.halted = true) (hn : s.finished = false) : Flags true s where
  finished hfin := by
    rw [hn] at hfin
    cases hfin
  failure hne := absurd hf hne
  fails := ⟨fun _ => ⟨hh, hn, hf⟩, fun _ => rfl⟩
  queue _ := hq

theorem flags_of_due {f : Bool} {s : Script} (h : Flags f s) (hs : s.Due) :
    s.finished = false ∧ f = false := by
  constructor
  · cases hf : s.finished with
    | false => rfl
    | true => exact absurd hs (Script.not_due_of_halted (h.finished hf).1)
  · cases hf : f with
    | false => rfl
    | true => exact absurd hs (Script.not_due_of_halted (h.fails.mp hf).1)

theorem flags_round {f : Bool} {b b' : Bindings} {s t : Script} (hs : s.Sound)
    (hr : Round (fun _ => .int 0) b s b' t) (h : Flags f s) : Flags f t := by
  have hdue := hr.due
  obtain ⟨hn, rfl⟩ := flags_of_due h hdue
  obtain ⟨row, rest, ha, hrow⟩ := hs.exists_row
  rcases hr.row_cases hs ha hrow with ⟨l, -, -, p, ⟨-, rfl⟩ | ⟨-, -, rfl⟩⟩ | ⟨x, -, -, p, -, rfl⟩
  · have hh := p.halted.trans hdue.halted
    have hf := p.failure.trans hdue.failure
    have hn := p.finished.trans hn
    exact ⟨fun h => by simp [hn] at h, fun h => absurd hf h, by simp [hh], nofun⟩
  · have hf := p.failure.trans hdue.failure
    exact ⟨fun _ => ⟨rfl, hf⟩, fun _ => rfl, by simp [Script.finish], nofun⟩
  · have hn := p.finished.trans hn
    refine ⟨fun h => ?_, fun _ => rfl, by simp [Script.halt], nofun⟩
    have hn' : (s.acts (x.moves ⟨b, fun _ => .int 0⟩)).finished = true := h
    rw [hn] at hn'
    cases hn'

theorem flags_rounds {f : Bool} {b b' : Bindings} {s t : Script} (hs : s.Sound)
    (hr : Rounds (fun _ => .int 0) b s b' t) (h : Flags f s) : Flags f t :=
  hr.induct (P := fun _ s => Flags f s) hs (fun hs hr h => flags_round hs hr h) h

theorem flags_handOver {f : Bool} {s : Script} (h : Flags f s) :
    Flags (Answer.fails f (.pulled s.handOver.1)) s.handOver.2 := by
  rcases s.handOver_cases with ⟨o, rest, hq, ho⟩ | ⟨e, hq, hf, ho⟩ | ⟨-, -, ho⟩
  · have hn : f ≠ true := fun hf => by simp [h.queue hf] at hq
    rw [ho]
    exact ⟨h.finished, h.failure, h.fails, fun hf => absurd hf hn⟩
  · have hh : s.halted = true := h.failure (by simp [hf])
    have hn : s.finished = false := by
      cases hn : s.finished with
      | false => rfl
      | true => simp [(h.finished hn).2] at hf
    rw [ho]
    exact flags_of_failed hq rfl hh hn
  · rw [ho]
    exact h

theorem flags_answer (hs : d.script.Sound) {f : Bool} (h : Flags f d.script)
    (q : Request) : Flags (Answer.fails f (d.answer q).1) (d.answer q).2.script := by
  cases q with
  | next =>
    obtain ⟨b', t, hr, -, hn⟩ := exists_rounds_answer hs
    rw [hn]
    exact flags_handOver (flags_rounds hs hr h)
  | recover =>
    rcases answer_recover_cases hs with hr | ⟨-, hn, body, rest, stop, -, -, p, hr⟩
    · rw [hr]
      exact h
    · rw [hr]
      have hn' : (d.script.resumed body stop).finished = false := p.finished.trans hn
      have hf : (d.script.resumed body stop).failure = none := p.failure
      refine ⟨fun hfin => ?_, fun hne => absurd hf hne, by simp [Answer.fails, Script.resumed], nofun⟩
      rw [hn'] at hfin
      cases hfin

theorem flags_serve (hs : d.script.Sound) (h : Flags (failing as) d.script) (qs : List Request) :
    Flags (failing (as ++ (d.serve qs).1)) (d.serve qs).2.script := by
  induction qs generalizing d as with
  | nil => simpa [serve] using h
  | cons q qs ih =>
    have ha := flags_answer hs h q
    rw [← failing_concat] at ha
    have := ih (sound_answer hs q) ha
    rw [List.append_assoc] at this
    exact this

theorem flags_ofText (names : NameGrammar) (source : String) :
    Flags (failing []) (Script.ofText names source) :=
  ⟨nofun, fun h => absurd rfl h, by simp [failing, Script.ofText, Script.ofReadings], nofun⟩

/-- From a fatal diagnostic on there is nothing more, and nothing changes. -/
theorem serve_of_failing (h : Flags true d.script) (n : Nat) :
    d.serve (List.replicate n .next) = (List.replicate n (.pulled .nothing), d) := by
  obtain ⟨hh, -, hf⟩ := h.fails.mp rfl
  have ha : d.answer .next = (.pulled .nothing, d) := answer_next_of_halted (h.queue rfl) hf hh
  induction n with
  | zero => rfl
  | succ n ih =>
    rw [List.replicate_succ, serve, ha, ih]
    rfl

/-- There is nothing more at the end of the input only, if no fatal diagnostic is the reason. From
then on there is nothing more forever. -/
theorem serve_of_nothing (hs : d.script.Sound) (h : Flags false d.script)
    (hn : (d.answer .next).1 = .pulled .nothing) :
    (d.answer .next).2.script.finished = true ∧
      ∀ qs, (d.answer .next).2.serve qs = (qs.map idle, (d.answer .next).2) := by
  obtain ⟨b', t, hr, hd, ha⟩ := exists_rounds_answer hs
  have hflags : Flags false t := flags_rounds hs hr h
  rw [ha] at hn ⊢
  rcases t.handOver_cases with ⟨o, rest, -, ho⟩ | ⟨e, -, -, ho⟩ | ⟨hq, hf, ho⟩
  · rw [ho] at hn
    cases hn
  · rw [ho] at hn
    cases hn
  · have hh : t.halted = true := by
      cases hh : t.halted with
      | true => rfl
      | false => exact absurd ⟨hq, hf, hh⟩ hd
    have hfin : t.finished = true := by
      cases hfin : t.finished with
      | true => rfl
      | false => cases hflags.fails.mpr ⟨hh, hfin, hf⟩
    rw [ho]
    exact ⟨hfin, fun qs => serve_of_finished (d := ⟨t, b'⟩) hq hf hh hfin qs⟩

end Dialogue

end LineCalc
