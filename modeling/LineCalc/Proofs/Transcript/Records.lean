import LineCalc.Proofs.Grammar.Quiet
import LineCalc.Proofs.Safety
import LineCalc.Session

/-!
# What a script keeps on record

The log of a script tells which tokens were taken and which assignments were made, in their order.
`Script.noted_acts` says what moves add to it. The counts go along: `Script.Counts` says what was
counted between two states of a script, of what was read and of the diagnostics put out meanwhile.
-/

namespace LineCalc

open Grammar Move

/-! ### Events -/

/-- What a token leaves in the log when it is taken. -/
def Token.entry (t : Token) : TokenKind × String := (t.kind, t.lexeme)

namespace Event

/-- The entry of a token that was taken. -/
def taken? : Event → Option (TokenKind × String)
  | .shift kind lexeme => some (kind, lexeme)
  | _ => none

/-- The name and the value of an assignment. -/
def stored? : Event → Option (String × Number)
  | .stored name value => some (name, value)
  | _ => none

variable {α : Type} {view : Event → Option α}

/-- A view of the log that passes over what was read, what was put out and how it ended. What is left
are the tokens taken and what evaluation notes. -/
structure Inner (view : Event → Option α) : Prop where
  matched : ∀ rule lexeme span, view (.matched rule lexeme span) = none
  illegal : ∀ c span, view (.illegal c span) = none
  diagnostic : ∀ d, view (.diagnostic d) = none
  result : ∀ value, view (.result value) = none
  halted : ∀ d, view (.halted d) = none
  summary : ∀ read eval, view (.summary read eval) = none

theorem inner_taken? : Inner taken? := by
  constructor <;> intros <;> rfl

theorem inner_stored? : Inner stored? := by
  constructor <;> intros <;> rfl

theorem Inner.filterMap_chunks (h : Inner view) (chunks : List Chunk) :
    (chunks.map Chunk.event).filterMap view = [] := by
  rw [List.filterMap_eq_nil_iff]
  intro e he
  obtain ⟨chunk, -, rfl⟩ := List.mem_map.mp he
  unfold Chunk.event
  split
  · exact h.matched _ _ _
  · exact h.illegal _ _

end Event

namespace Move

/-- What a move adds to the log, apart from what is read and put out meanwhile. -/
@[simp] def event? : Move → Option Event
  | take t => some (.shift t.kind t.lexeme)
  | note e => some e
  | _ => none

variable {α : Type} (view : Event → Option α)

/-- What a view of the log sees of moves. -/
def noted (m : List Move) : List α := (m.filterMap event?).filterMap view

@[simp] theorem noted_nil : noted view [] = [] := rfl

@[simp] theorem noted_cons (x : Move) (m : List Move) :
    noted view (x :: m) = (x.event?.bind view).toList ++ noted view m := by
  rw [noted, noted, List.filterMap_cons]
  cases x.event? with
  | none => rfl
  | some e =>
    rw [List.filterMap_cons]
    show _ = (view e).toList ++ _
    cases view e <;> rfl

@[simp] theorem noted_append (m m' : List Move) :
    noted view (m ++ m') = noted view m ++ noted view m' := by
  simp [noted]

/-- Ordinary moves note no other tokens than those they take. -/
theorem noted_taken?_of_ordinary {m : List Move} (h : ∀ x ∈ m, x.Ordinary) :
    noted Event.taken? m = (taken m).map Token.entry := by
  induction m with
  | nil => rfl
  | cons x m ih =>
    rw [List.forall_mem_cons] at h
    rw [noted_cons, taken_cons, List.map_append, ih h.2]
    cases h.1 <;> rfl

theorem noted_stored?_of_ordinary {m : List Move} (h : ∀ x ∈ m, x.Ordinary) :
    noted Event.stored? m = [] := by
  induction m with
  | nil => rfl
  | cons x m ih =>
    rw [List.forall_mem_cons] at h
    rw [noted_cons, ih h.2]
    cases h.1 <;> rfl

theorem countP_counts_of_ordinary {m : List Move} (h : ∀ x ∈ m, x.Ordinary) :
    m.countP counts = 0 := by
  rw [List.countP_eq_zero]
  intro x hx
  cases h x hx <;> simp

end Move

namespace Grammar

/-- What is stored is noted in the verdict on a line. -/
theorem Line.noted_stored? (scope : Scope) (l : Line) :
    Move.noted Event.stored? (l.moves scope) = Move.noted Event.stored? (l.verdict scope) := by
  cases l with
  | blank stop =>
    have hstop := noted_stored?_of_ordinary stop.ordinary_moves
    simp [moves, verdict, hstop]
  | full c stop =>
    have hcontent := noted_stored?_of_ordinary (c.ordinary_moves scope)
    have hstop := noted_stored?_of_ordinary stop.ordinary_moves
    simp [moves, verdict, hcontent, hstop]

/-- Up to where it fails, a slip stores nothing. -/
theorem Slip.noted_stored? (scope : Scope) (x : Slip) :
    Move.noted Event.stored? (x.moves scope) = [] := by
  obtain ⟨inner, hm, hinner⟩ := x.exists_moves_eq scope
  rw [hm]
  simp [noted_stored?_of_ordinary hinner]

end Grammar

namespace Script

variable {α : Type} {view : Event → Option α}

/-- What a view sees of the log, in the order of the events. -/
def noted (view : Event → Option α) (s : Script) : List α := s.log.reverse.filterMap view

theorem noted_logged (s : Script) (e : Event) :
    (s.logged e).noted view = s.noted view ++ (view e).toList := by
  show (e :: s.log).reverse.filterMap view = _
  rw [List.reverse_cons, List.filterMap_append]
  cases h : view e <;> simp [noted, h]

theorem noted_of_none (s : Script) {e : Event} (h : view e = none) :
    (s.logged e).noted view = s.noted view := by
  rw [noted_logged, h]
  exact List.append_nil _

theorem noted_absorb (hv : Event.Inner view) (s : Script) (r : Reading) :
    (s.absorb r).noted view = s.noted view := by
  have hchunks : ((r.chunks.map Chunk.event).reverse ++ s.log).reverse.filterMap view =
      s.noted view := by
    rw [List.reverse_append, List.reverse_reverse, List.filterMap_append, hv.filterMap_chunks,
      List.append_nil]
    rfl
  unfold absorb
  split
  · exact hchunks
  · rw [← hchunks]
    exact noted_of_none _ (hv.diagnostic _)

theorem noted_fillFrom (hv : Event.Inner view) {n : Nat} {rs : List Reading} {s s' : Script}
    (h : s.fillFrom n rs = some s') : s'.noted view = s.noted view := by
  induction rs generalizing s with
  | nil =>
    obtain ⟨last, -, rfl⟩ := Option.map_eq_some_iff.mp h
    rfl
  | cons r rs ih =>
    rw [fillFrom] at h
    split at h
    · obtain rfl := Option.some.inj h
      rfl
    · rw [ih h, noted_absorb hv]

theorem noted_fill (hv : Event.Inner view) (n : Nat) (s : Script) :
    ((s.fillFrom n s.unread).getD s).noted view = s.noted view := by
  cases h : s.fillFrom n s.unread with
  | none => rfl
  | some t => exact noted_fillFrom hv h

theorem noted_act (hv : Event.Inner view) (s : Script) (x : Move) :
    (s.act x).noted view = s.noted view ++ (x.event?.bind view).toList := by
  cases x with
  | look n => exact (noted_fill hv n s).trans (List.append_nil _).symm
  | take t =>
    rw [← noted_fill hv 0 s]
    exact noted_logged _ (.shift t.kind t.lexeme)
  | report d => exact (noted_of_none s (hv.diagnostic d)).trans (List.append_nil _).symm
  | print value => exact (noted_of_none s (hv.result value)).trans (List.append_nil _).symm
  | note e => exact noted_logged s e
  | blame | forgive | enter | leave | clear | count => exact (List.append_nil _).symm

theorem noted_acts (hv : Event.Inner view) (s : Script) (m : List Move) :
    (s.acts m).noted view = s.noted view ++ Move.noted view m := by
  induction m generalizing s with
  | nil => exact (List.append_nil _).symm
  | cons x m ih => rw [acts_cons, ih, noted_act hv, Move.noted_cons, List.append_assoc]

/-! ### Counts -/

/-- Between `s` and `s'` some readings were made and some outputs put into the queue, and that is what
was counted. -/
def Counts (s s' : Script) : Prop :=
  ∃ read new, s.unread = read ++ s'.unread ∧ s'.queue = s.queue ++ new ∧
    s'.readTally = read.foldl (fun sum r => sum + r.tally) s.readTally ∧
    s'.evalTally.diagnostics = s.evalTally.diagnostics + (new.filterMap Output.diagnostic?).length

theorem Counts.refl (s : Script) : s.Counts s := ⟨[], [], rfl, (List.append_nil _).symm, rfl, rfl⟩

theorem Counts.trans {s₁ s₂ s₃ : Script} (h₁ : s₁.Counts s₂) (h₂ : s₂.Counts s₃) : s₁.Counts s₃ := by
  obtain ⟨read₁, new₁, u₁, q₁, r₁, d₁⟩ := h₁
  obtain ⟨read₂, new₂, u₂, q₂, r₂, d₂⟩ := h₂
  refine ⟨read₁ ++ read₂, new₁ ++ new₂, ?_, ?_, ?_, ?_⟩
  · rw [u₁, u₂, List.append_assoc]
  · rw [q₂, q₁, List.append_assoc]
  · rw [r₂, r₁, List.foldl_append]
  · rw [d₂, d₁, List.filterMap_append, List.length_append]
    omega

theorem counts_of_eq {s s' : Script} (hu : s'.unread = s.unread) (hq : s'.queue = s.queue)
    (hr : s'.readTally = s.readTally)
    (hd : s'.evalTally.diagnostics = s.evalTally.diagnostics) : s.Counts s' :=
  ⟨[], [], hu.symm, by rw [hq, List.append_nil], hr, hd⟩

theorem counts_absorb (s : Script) (r : Reading) (rest : List Reading) :
    Counts { s with unread := r :: rest } { s.absorb r with unread := rest } := by
  obtain ⟨chunks, item⟩ := r
  cases item with
  | ok t => exact ⟨[⟨chunks, .ok t⟩], [], rfl, (List.append_nil _).symm, rfl, rfl⟩
  | error d => exact ⟨[⟨chunks, .error d⟩], [.diagnostic d], rfl, rfl, rfl, rfl⟩

theorem counts_fillFrom {n : Nat} {rs : List Reading} {s s' : Script}
    (h : s.fillFrom n rs = some s') : Counts { s with unread := rs } s' := by
  induction rs generalizing s with
  | nil =>
    obtain ⟨last, -, rfl⟩ := Option.map_eq_some_iff.mp h
    exact counts_of_eq rfl rfl rfl rfl
  | cons r rs ih =>
    rw [fillFrom] at h
    split at h
    · obtain rfl := Option.some.inj h
      exact .refl _
    · exact (counts_absorb s r rs).trans (ih h)

theorem counts_fill (n : Nat) (s : Script) : s.Counts ((s.fillFrom n s.unread).getD s) := by
  cases h : s.fillFrom n s.unread with
  | none => exact .refl s
  | some t => exact counts_fillFrom h

theorem counts_act (s : Script) (x : Move) : s.Counts (s.act x) := by
  cases x with
  | look n => exact counts_fill n s
  | take t => exact (counts_fill 0 s).trans (counts_of_eq rfl rfl rfl rfl)
  | report d => exact ⟨[], [.diagnostic d], rfl, rfl, rfl, rfl⟩
  | print value => exact ⟨[], [.value value], rfl, rfl, rfl, rfl⟩
  | blame | forgive | note | enter | leave | clear | count => exact counts_of_eq rfl rfl rfl rfl

/-- Whatever moves are made, what they read and put out is counted. -/
theorem counts_acts (s : Script) (m : List Move) : s.Counts (s.acts m) := by
  induction m generalizing s with
  | nil => exact .refl s
  | cons x m ih => exact (counts_act s x).trans (ih _)

end Script

end LineCalc
