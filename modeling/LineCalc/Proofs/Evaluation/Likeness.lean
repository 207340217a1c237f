import LineCalc.Proofs.Evaluation.Working
import LineCalc.Proofs.Transcript.Records
import LineCalc.Script.Pull
import Mathlib.Data.List.Forall2

/-!
# Scripts that are alike

What a script does depends on the kinds and payloads of its tokens. On their lexemes and places only
diagnostics and the log depend, and numbers that stand in for missing values. So where the readings of
two texts correspond, whatever their places may be, the scripts of both do the same: each step of an
evaluation keeps the two side by side, and so does every evaluation.

A `Likeness` says how places and readings correspond, and the counts of what was read. The second script
may have more turns to spare. So only what the first one does without a breach is carried over.
-/

namespace LineCalc

/-! ### What is alike -/

/-- The same problem at corresponding places. -/
structure Diagnostic.Like (place : Span → Span → Prop) (d d' : Diagnostic) : Prop where
  problem : d'.problem = d.problem
  place : place d.span d'.span

/-- The same value, or the same problem at corresponding places. -/
inductive Output.Like (place : Span → Span → Prop) : Output → Output → Prop where
  | value (n : Number) : Output.Like place (.value n) (.value n)
  | diagnostic {d d' : Diagnostic} (h : d.Like place d') :
      Output.Like place (.diagnostic d) (.diagnostic d')

/-- Tokens that correspond, or diagnostics that are alike. -/
inductive Reading.ItemLike (place : Span → Span → Prop) (token : Token → Token → Prop) :
    Except Diagnostic Token → Except Diagnostic Token → Prop where
  | ok {t t' : Token} (h : token t t') : ItemLike place token (.ok t) (.ok t')
  | error {d d' : Diagnostic} (h : d.Like place d') : ItemLike place token (.error d) (.error d')

/-- How two texts correspond: their places, tokens and readings, what has been counted, and what
assignments have been made. Counts and assignments keep corresponding when the same is added to both. -/
structure Likeness where
  place : Span → Span → Prop
  token : Token → Token → Prop
  reading : Reading → Reading → Prop
  readTally : ReadTally → ReadTally → Prop
  evalTally : EvalTally → EvalTally → Prop
  stores : List (String × Number) → List (String × Number) → Prop
  merge {p p' q q' : Span} : place p p' → place q q' → place (p.merge q) (p'.merge q')
  kind {t t' : Token} : token t t' → t'.kind = t.kind
  payload {t t' : Token} : token t t' → t'.payload = t.payload
  /-- In the wrong place they are called the same. -/
  found {t t' : Token} : token t t' → Found.ofToken t' = Found.ofToken t
  span {t t' : Token} : token t t' → place t.span t'.span
  item {r r' : Reading} : reading r r' → Reading.ItemLike place token r.item r'.item
  readTally_add {a a' : ReadTally} {r r' : Reading} : readTally a a' → reading r r' →
    readTally (a + r.tally) (a' + r'.tally)
  evalTally_add {a a' : EvalTally} (x : EvalTally) : evalTally a a' → evalTally (a + x) (a' + x)
  stores_append {l l' : List (String × Number)} (x : List (String × Number)) :
    stores l l' → stores (l ++ x) (l' ++ x)

/-- The scripts are in corresponding states. -/
structure Script.Like (ℓ : Likeness) (s s' : Script) : Prop where
  unread : List.Forall₂ ℓ.reading s.unread s'.unread
  size : s.size ≤ s'.size
  lookahead : List.Forall₂ ℓ.token s.lookahead s'.lookahead
  queue : List.Forall₂ (Output.Like ℓ.place) s.queue s'.queue
  fault : Option.Rel (Diagnostic.Like ℓ.place) s.fault s'.fault
  failure : Option.Rel (Diagnostic.Like ℓ.place) s.failure s'.failure
  depth : s'.depth = s.depth
  halted : s'.halted = s.halted
  finished : s'.finished = s.finished
  readTally : ℓ.readTally s.readTally s'.readTally
  evalTally : ℓ.evalTally s.evalTally s'.evalTally
  stores : ℓ.stores (s.noted Event.stored?) (s'.noted Event.stored?)

variable {ℓ : Likeness} {s s' t : Script} {d d' : Diagnostic} {tok tok' : Token}

/-! ### Lists side by side -/

section

variable {α β : Type} {R : α → β → Prop} {l : List α} {l' : List β} {a : α} {b : β}

theorem exists_getElem?_of_forall₂ (h : List.Forall₂ R l l') {n : Nat} (ha : l[n]? = some a) :
    ∃ b, l'[n]? = some b ∧ R a b := by
  induction h generalizing n with
  | nil => cases ha
  | cons hr h ih =>
    cases n with
    | zero =>
      obtain rfl := Option.some.inj ha
      exact ⟨_, rfl, hr⟩
    | succ n => exact ih ha

theorem exists_getLast?_of_forall₂ (h : List.Forall₂ R l l') (ha : l.getLast? = some a) :
    ∃ b, l'.getLast? = some b ∧ R a b := by
  rw [List.getLast?_eq_getElem?] at ha
  rw [List.getLast?_eq_getElem?, ← h.length_eq]
  exact exists_getElem?_of_forall₂ h ha

theorem forall₂_replicate (h : R a b) (n : Nat) :
    List.Forall₂ R (List.replicate n a) (List.replicate n b) := by
  induction n with
  | zero => exact .nil
  | succ n ih => exact .cons h ih

end

/-! ### Problems with tokens -/

theorem Diagnostic.unexpected_like (h : ℓ.token tok tok') :
    (unexpected tok).Like ℓ.place (unexpected tok') :=
  ⟨congrArg Problem.unexpected (ℓ.found h), ℓ.span h⟩

theorem Diagnostic.nesting_like (h : ℓ.token tok tok') :
    (nesting tok).Like ℓ.place (nesting tok') :=
  ⟨congrArg Problem.nesting (ℓ.found h), ℓ.span h⟩

/-! ### Steps on scripts -/

namespace Script.Like

theorem logged (h : s.Like ℓ s') {e e' : Event} (he : e'.stored? = e.stored?) :
    (s.logged e).Like ℓ (s'.logged e') :=
  { h with
    stores := by
      rw [noted_logged, noted_logged, he]
      exact ℓ.stores_append _ h.stores }

theorem report (h : s.Like ℓ s') (hd : d.Like ℓ.place d') : (s.report d).Like ℓ (s'.report d') :=
  { h.logged (show (Event.diagnostic d').stored? = (Event.diagnostic d).stored? from rfl) with
    queue := List.rel_append h.queue (.cons (.diagnostic hd) .nil)
    evalTally := ℓ.evalTally_add _ h.evalTally }

theorem print (h : s.Like ℓ s') (value : Number) : (s.print value).Like ℓ (s'.print value) :=
  { h.logged (show (Event.result value).stored? = (Event.result value).stored? from rfl) with
    queue := List.rel_append h.queue (.cons (.value value) .nil) }

theorem blame (h : s.Like ℓ s') (hd : d.Like ℓ.place d') : (s.blame d).Like ℓ (s'.blame d') :=
  { h with
    fault := by
      show Option.Rel _ (s.fault.or (some d)) (s'.fault.or (some d'))
      have hf := h.fault
      generalize s.fault = f at hf
      generalize s'.fault = f' at hf
      cases hf with
      | none => exact .some hd
      | some hf => exact .some hf }

theorem counted (h : s.Like ℓ s') : s.counted.Like ℓ s'.counted :=
  { h with evalTally := ℓ.evalTally_add _ h.evalTally }

theorem shift (h : s.Like ℓ s') (ht : ℓ.token tok tok') : (s.shift tok).Like ℓ (s'.shift tok') :=
  { h.logged (show (Event.shift tok'.kind tok'.lexeme).stored? =
      (Event.shift tok.kind tok.lexeme).stored? from rfl) with
    lookahead := by
      show List.Forall₂ _ (if tok.kind = .endOfInput then s.lookahead else s.lookahead.tail)
        (if tok'.kind = .endOfInput then s'.lookahead else s'.lookahead.tail)
      rw [ℓ.kind ht]
      have hl := h.lookahead
      split
      · exact hl
      · generalize s.lookahead = l at hl
        generalize s'.lookahead = l' at hl
        cases hl with
        | nil => exact .nil
        | cons _ hl => exact hl
    evalTally := ℓ.evalTally_add _ h.evalTally }

theorem absorb {rs rs' : List Reading} {r r' : Reading} (hr : ℓ.reading r r')
    (h : { s with unread := r :: rs }.Like ℓ { s' with unread := r' :: rs' }) :
    { s.absorb r with unread := rs }.Like ℓ { s'.absorb r' with unread := rs' } := by
  have hu : List.Forall₂ ℓ.reading rs rs' := (List.forall₂_cons.mp h.unread).2
  have ht : ℓ.readTally (s.readTally + r.tally) (s'.readTally + r'.tally) :=
    ℓ.readTally_add h.readTally hr
  have hs : ℓ.stores ((s.absorb r).noted Event.stored?) ((s'.absorb r').noted Event.stored?) := by
    rw [noted_absorb Event.inner_stored?, noted_absorb Event.inner_stored?]
    exact h.stores
  have hi := ℓ.item hr
  obtain ⟨chunks, item⟩ := r
  obtain ⟨chunks', item'⟩ := r'
  cases hi with
  | ok htok =>
    exact { h with
      unread := hu, readTally := ht, stores := hs
      lookahead := List.rel_append h.lookahead (.cons htok .nil) }
  | error hd =>
    exact { h with
      unread := hu, readTally := ht, stores := hs
      queue := List.rel_append h.queue (.cons (.diagnostic hd) .nil)
      evalTally := ℓ.evalTally_add _ h.evalTally }

theorem length_lookahead (h : s.Like ℓ s') : s'.lookahead.length = s.lookahead.length :=
  h.lookahead.length_eq.symm

theorem fillFrom {n : Nat} {rs rs' : List Reading}
    (h : { s with unread := rs }.Like ℓ { s' with unread := rs' }) (ht : s.fillFrom n rs = some t) :
    ∃ t', s'.fillFrom n rs' = some t' ∧ t.Like ℓ t' := by
  -- item by item on both sides; past the end both repeat their last tokens
  induction rs generalizing s s' rs' with
  | nil =>
    obtain rfl : rs' = [] := List.forall₂_nil_left_iff.mp h.unread
    rw [Script.fillFrom] at ht
    obtain ⟨last, hl, rfl⟩ := Option.map_eq_some_iff.mp ht
    have hla : List.Forall₂ ℓ.token s.lookahead s'.lookahead := h.lookahead
    obtain ⟨last', hl', hlast⟩ := exists_getLast?_of_forall₂ hla hl
    rw [Script.fillFrom, hl', ← hla.length_eq]
    exact ⟨_, rfl, { h with lookahead := List.rel_append hla (forall₂_replicate hlast _) }⟩
  | cons r rs ih =>
    obtain ⟨r', rs'', hr, hrs, rfl⟩ := List.forall₂_cons_left_iff.mp h.unread
    rw [Script.fillFrom] at ht
    have hlen : s'.lookahead.length = s.lookahead.length := h.length_lookahead
    rw [Script.fillFrom, hlen]
    split at ht
    · rename_i hn
      obtain rfl := Option.some.inj ht
      rw [if_pos hn]
      exact ⟨_, rfl, h⟩
    · rename_i hn
      rw [if_neg hn]
      exact ih (h.absorb hr) ht

end Script.Like

/-! ### Taking tokens -/

namespace Feed

theorem fill_like {n : Nat} (h : s.Like ℓ s') (hp : fill n s = .ok () t) :
    ∃ t', fill n s' = .ok () t' ∧ t.Like ℓ t' := by
  rw [fill] at hp
  cases hf : s.fillFrom n s.unread with
  | none =>
    rw [hf] at hp
    cases hp
  | some t₁ =>
    rw [hf] at hp
    cases hp
    obtain ⟨t', hf', h'⟩ := Script.Like.fillFrom h hf
    exact ⟨t', by rw [fill, hf'], h'⟩

theorem peek_like {n : Nat} (h : s.Like ℓ s') (hp : peek n s = .ok tok t) :
    ∃ tok' t', peek n s' = .ok tok' t' ∧ ℓ.token tok tok' ∧ t.Like ℓ t' := by
  obtain ⟨⟨⟩, t₁, hf, hp⟩ := exists_of_bind_eq_ok hp
  obtain ⟨t', hf', h'⟩ := fill_like h hf
  rw [get_bind] at hp
  cases hl : t₁.lookahead[n]? with
  | none =>
    rw [hl] at hp
    cases hp
  | some tok₁ =>
    rw [hl] at hp
    cases hp
    obtain ⟨tok', hl', htok⟩ := exists_getElem?_of_forall₂ h'.lookahead hl
    rw [peek, bind_ok hf', get_bind, hl']
    exact ⟨tok', t', rfl, htok, h'⟩

theorem advance_like (h : s.Like ℓ s') (hp : advance s = .ok tok t) :
    ∃ tok' t', advance s' = .ok tok' t' ∧ ℓ.token tok tok' ∧ t.Like ℓ t' := by
  obtain ⟨tok₁, t₁, he, hp⟩ := exists_of_bind_eq_ok hp
  obtain ⟨tok', t', he', htok, h'⟩ := peek_like h he
  cases hp
  rw [advance, bind_ok he']
  exact ⟨tok', _, rfl, htok, h'.shift htok⟩

/-- Skipping a line, with no fewer turns than are needed. -/
theorem skipLine_like {turns turns' : Nat} (ht : turns ≤ turns') (h : s.Like ℓ s')
    (hp : skipLine turns s = .ok () t) : ∃ t', skipLine turns' s' = .ok () t' ∧ t.Like ℓ t' := by
  induction turns generalizing turns' s s' with
  | zero => cases hp
  | succ turns ih =>
    obtain ⟨turns', rfl⟩ : ∃ n, turns' = n + 1 := ⟨turns' - 1, by omega⟩
    obtain ⟨tok, s₁, h₁, hp⟩ := exists_of_bind_eq_ok hp
    obtain ⟨tok', s₁', h₁', htok, d₁⟩ := peek_like h h₁
    rw [skipLine, bind_ok h₁', ℓ.kind htok]
    -- the tokens looked at have the same kind, so both sides stop, or go on
    cases hk : tok.kind with
    | endOfInput =>
      rw [hk] at hp
      cases hp
      exact ⟨s₁', rfl, d₁⟩
    | newLine =>
      rw [hk] at hp
      obtain ⟨tok, s₂, h₂, hp⟩ := exists_of_bind_eq_ok (m := advance) (f := fun _ => pure ()) hp
      obtain ⟨tok', s₂', h₂', -, d₂⟩ := advance_like d₁ h₂
      cases hp
      exact ⟨s₂', bind_ok (m := advance) (f := fun _ => pure ()) h₂', d₂⟩
    | _ =>
      rw [hk] at hp
      obtain ⟨tok, s₂, h₂, hp⟩ := exists_of_bind_eq_ok hp
      obtain ⟨tok', s₂', h₂', -, d₂⟩ := advance_like d₁ h₂
      obtain ⟨t', h₃, d₃⟩ := ih (Nat.le_of_succ_le_succ ht) d₂ hp
      exact ⟨t', (bind_ok h₂').trans h₃, d₃⟩

theorem recover_like {r : Bool} (h : s.Like ℓ s') (hp : recover s = .ok r t) :
    ∃ t', recover s' = .ok r t' ∧ t.Like ℓ t' := by
  have he : (!s'.halted || s'.finished) = (!s.halted || s.finished) := by
    rw [h.halted, h.finished]
  rw [recover, get_bind] at hp
  rw [recover, get_bind]
  split at hp
  · rename_i hc
    rw [if_pos (he.trans hc)]
    cases hp
    exact ⟨s', rfl, h⟩
  · rename_i hc
    rw [if_neg (he ▸ hc)]
    obtain ⟨⟨⟩, s₁, h₁, hp⟩ := exists_of_bind_eq_ok hp
    cases h₁
    obtain ⟨⟨⟩, s₂, h₂, hp⟩ := exists_of_bind_eq_ok hp
    cases hp
    have hd : { s with failure := none }.Like ℓ { s' with failure := none } :=
      { h with failure := .none }
    obtain ⟨t', h₂', d₂⟩ := skipLine_like (Nat.succ_le_succ h.size) hd h₂
    refine ⟨{ t' with halted := false }, ?_, { d₂ with halted := rfl }⟩
    show (skipLine (s'.size + 1) >>= fun _ => _) { s' with failure := none } = _
    rw [bind_ok h₂']
    rfl

end Feed

/-! ### Evaluations -/

open Eval

/-- `m'` does on the second script what `m` does on the first, with results that correspond. -/
def Parallel (ℓ : Likeness) {α : Type} (R : α → α → Prop) (m m' : Eval α) : Prop :=
  ∀ s s', s.Like ℓ s' → match m s with
    | .ok a t => ∃ a' t', m' s' = .ok a' t' ∧ R a a' ∧ t.Like ℓ t'
    | .error (.fatal d) t =>
      ∃ d' t', m' s' = .error (.fatal d') t' ∧ d.Like ℓ.place d' ∧ t.Like ℓ t'
    | .error (.breach _) _ => True

namespace Parallel

variable {α β : Type} {R : α → α → Prop} {S : β → β → Prop} {m m' : Eval α}
variable {u u' : Script → Script}

theorem bind {k k' : α → Eval β} (hm : Parallel ℓ R m m')
    (hk : ∀ a a', R a a' → Parallel ℓ S (k a) (k' a')) : Parallel ℓ S (m >>= k) (m' >>= k') := by
  intro s s' h
  have hs := hm s s' h
  cases he : m s with
  | ok a t =>
    rw [he] at hs
    obtain ⟨a', t', he', ha, h'⟩ := hs
    rw [bind_ok he, bind_ok he']
    exact hk a a' ha t t' h'
  | error e t =>
    rw [he] at hs
    rw [bind_error he]
    cases e with
    | fatal d =>
      obtain ⟨d', t', he', hd, h'⟩ := hs
      exact ⟨d', t', bind_error he', hd, h'⟩
    | breach b => trivial

theorem bind_eq {k k' : α → Eval β} (hm : Parallel ℓ Eq m m')
    (hk : ∀ a, Parallel ℓ S (k a) (k' a)) : Parallel ℓ S (m >>= k) (m' >>= k') :=
  hm.bind fun a _ ha => ha ▸ hk a

theorem result {a a' : α} (ha : R a a') : Parallel ℓ R (pure a) (pure a') :=
  fun _ _ h => ⟨_, _, rfl, ha, h⟩

theorem breach (b : Breach) (m' : Eval α) : Parallel ℓ R (throw (.breach b)) m' :=
  fun _ _ _ => trivial

theorem fatal (hd : d.Like ℓ.place d') : Parallel ℓ R (fail d) (fail d') :=
  fun _ _ h => ⟨_, _, rfl, hd, h⟩

theorem update (h : ∀ {s s'}, s.Like ℓ s' → (u s).Like ℓ (u' s')) :
    Parallel ℓ Eq (modify u : Eval Unit) (modify u') := fun _ _ hs => ⟨_, _, rfl, rfl, h hs⟩

theorem of_get {k k' : Script → Eval α}
    (h : ∀ s s', s.Like ℓ s' → Parallel ℓ R (k s) (k' s')) :
    Parallel ℓ R (get >>= k) (get >>= k') := fun s s' hs => h s s' hs s s' hs

theorem of_feed {m : Feed α} (h : ∀ {s s' t a}, s.Like ℓ s' → m s = .ok a t →
    ∃ a' t', m s' = .ok a' t' ∧ R a a' ∧ t.Like ℓ t') : Parallel ℓ R (m : Eval α) (m : Eval α) := by
  intro s s' hs
  cases he : m s with
  | ok a t =>
    obtain ⟨a', t', he', ha, h'⟩ := h hs he
    rw [lift_ok he]
    exact ⟨a', t', lift_ok he', ha, h'⟩
  | error b t =>
    rw [lift_error he]
    trivial

theorem peek (n : Nat) : Parallel ℓ ℓ.token (Feed.peek n : Feed Token)
    (Feed.peek n : Feed Token) := of_feed Feed.peek_like

theorem advance : Parallel ℓ ℓ.token (Feed.advance : Feed Token)
    (Feed.advance : Feed Token) := of_feed Feed.advance_like

theorem note (e : Event) : Parallel ℓ Eq (Feed.emit e : Feed Unit) (Feed.emit e : Feed Unit) :=
  fun _ _ h => ⟨_, _, rfl, rfl, h.logged rfl⟩

theorem blame (hd : d.Like ℓ.place d') :
    Parallel ℓ Eq (modify (·.blame d)) (modify (·.blame d')) := update fun h => h.blame hd

theorem report (hd : d.Like ℓ.place d') :
    Parallel ℓ Eq (modify (·.report d)) (modify (·.report d')) := update fun h => h.report hd

/-! ### Expressions -/

theorem expect (kind : TokenKind) : Parallel ℓ ℓ.token (expect kind) (expect kind) := by
  refine (peek 0).bind fun tok tok' ht => ?_
  rw [ℓ.kind ht]
  by_cases h : tok.kind = kind
  · rw [if_pos h, if_pos h]
    exact advance
  · rw [if_neg h, if_neg h]
    exact fatal (Diagnostic.unexpected_like ht)

theorem descend : Parallel ℓ Eq descend descend := by
  refine of_get fun s s' h => ?_
  rw [h.depth]
  by_cases hd : s.depth < maxNesting
  · simp only [if_pos hd]
    exact update fun h => { h with depth := congrArg (· + 1) h.depth }
  · simp only [if_neg hd]
    exact (peek 0).bind fun tok tok' ht => fatal (Diagnostic.nesting_like ht)

theorem ascend : Parallel ℓ Eq ascend ascend := by
  refine of_get fun s s' h => ?_
  rw [h.depth]
  cases s.depth with
  | zero => exact breach _ _
  | succ depth => exact update fun h => { h with depth := rfl }

variable {scope : Scope} {inner inner' : Nat → Eval Number}

theorem settle (hs : ∀ p p', ℓ.place p p' → scope.standIn p' = scope.standIn p) {p p' : Span}
    (hp : ℓ.place p p') (v : Except ArithError Number) :
    Parallel ℓ Eq (settle scope p v) (settle scope p' v) := by
  cases v with
  | ok value => exact result rfl
  | error e =>
    have hd : Diagnostic.Like ℓ.place ⟨.arithmetic e, p⟩ ⟨.arithmetic e, p'⟩ := ⟨rfl, hp⟩
    exact (blame hd).bind_eq fun _ => result (hs p p' hp).symm

theorem literal : Parallel ℓ Eq literal literal := by
  refine advance.bind fun tok tok' ht => ?_
  rw [ℓ.payload ht]
  split
  · exact result rfl
  · exact breach _ _

theorem name : Parallel ℓ Eq (name scope) (name scope) := by
  refine advance.bind fun tok tok' ht => ?_
  rw [ℓ.payload ht]
  split
  · rename_i name _
    split
    · exact result rfl
    · have hd : Diagnostic.Like ℓ.place ⟨.undefined name, tok.span⟩ ⟨.undefined name, tok'.span⟩ :=
        ⟨rfl, ℓ.span ht⟩
      exact (report hd).bind_eq fun _ => result rfl
  · exact breach _ _

theorem call (hs : ∀ p p', ℓ.place p p' → scope.standIn p' = scope.standIn p)
    (hi : ∀ least, Parallel ℓ Eq (inner least) (inner' least)) :
    Parallel ℓ Eq (call scope inner) (call scope inner') := by
  refine descend.bind_eq fun _ => advance.bind fun tok tok' ht => ?_
  rw [ℓ.payload ht]
  split
  · exact (expect .leftParen).bind fun _ _ _ => (hi _).bind_eq fun arg =>
      (expect .rightParen).bind fun close close' hc => ascend.bind_eq fun _ => (note _).bind_eq
        fun _ => settle hs (ℓ.merge (ℓ.span ht) (ℓ.span hc)) _
  · exact breach _ _

theorem parenthesis (hi : ∀ least, Parallel ℓ Eq (inner least) (inner' least)) :
    Parallel ℓ Eq (parenthesis inner) (parenthesis inner') :=
  descend.bind_eq fun _ => advance.bind fun _ _ _ => (hi _).bind_eq fun _ =>
    (expect .rightParen).bind fun _ _ _ => ascend.bind_eq fun _ => result rfl

theorem primary (hs : ∀ p p', ℓ.place p p' → scope.standIn p' = scope.standIn p)
    (hi : ∀ least, Parallel ℓ Eq (inner least) (inner' least)) :
    Parallel ℓ Eq (primary scope inner) (primary scope inner') := by
  refine (peek 0).bind fun tok tok' ht => ?_
  rw [ℓ.kind ht]
  cases tok.kind with
  | nondecimal | scientific | float | number => exact literal
  | ident => exact name
  | func => exact call hs hi
  | leftParen => exact parenthesis hi
  | _ => exact fatal (Diagnostic.unexpected_like ht)

theorem operand (hs : ∀ p p', ℓ.place p p' → scope.standIn p' = scope.standIn p)
    (hi : ∀ least, Parallel ℓ Eq (inner least) (inner' least)) :
    Parallel ℓ Eq (operand scope inner) (operand scope inner') := by
  refine (peek 0).bind fun tok tok' ht => ?_
  rw [ℓ.kind ht]
  cases UnOp.ofKind? tok.kind with
  | none => exact primary hs hi
  | some op =>
    exact descend.bind_eq fun _ => advance.bind fun sign sign' ht => (hi _).bind_eq fun _ =>
      ascend.bind_eq fun _ => (note _).bind_eq fun _ => settle hs (ℓ.span ht) _

/-- More turns make no difference to a loop that ends. -/
theorem climb (hs : ∀ p p', ℓ.place p p' → scope.standIn p' = scope.standIn p)
    (hi : ∀ least, Parallel ℓ Eq (inner least) (inner' least)) {least turns turns' : Nat}
    (ht : turns ≤ turns') (lhs : Number) :
    Parallel ℓ Eq (climb scope inner least turns lhs) (climb scope inner' least turns' lhs) := by
  induction turns generalizing turns' lhs with
  | zero => exact breach _ _
  | succ turns ih =>
    obtain ⟨turns', rfl⟩ : ∃ n, turns' = n + 1 := ⟨turns' - 1, by omega⟩
    rw [Eval.climb, Eval.climb]
    refine (peek 0).bind fun tok tok' htok => ?_
    rw [ℓ.kind htok]
    cases BinOp.ofKind? tok.kind with
    | none => exact result rfl
    | some op =>
      by_cases hp : op.precedence < least
      · simp only [if_pos hp]
        exact result rfl
      · simp only [if_neg hp]
        exact advance.bind fun sign sign' hsign => (hi _).bind_eq fun rhs => (note _).bind_eq fun _ =>
          (settle hs (ℓ.span hsign) _).bind_eq fun value => ih (by omega) value

theorem expression (hs : ∀ p p', ℓ.place p p' → scope.standIn p' = scope.standIn p) (calls : Nat)
    (least : Nat) : Parallel ℓ Eq (expression scope calls least) (expression scope calls least) := by
  induction calls generalizing least with
  | zero => exact breach _ _
  | succ calls ih =>
    refine (operand hs ih).bind_eq fun lhs => ?_
    exact of_get fun s s' h => climb hs ih h.size lhs

/-! ### Statements -/

theorem deed (hs : ∀ p p', ℓ.place p p' → scope.standIn p' = scope.standIn p) :
    Parallel ℓ Eq (deed scope) (deed scope) := by
  refine (peek 0).bind fun first first' h₁ => (peek 1).bind fun second second' h₂ => ?_
  rw [ℓ.kind h₁, ℓ.kind h₂, ℓ.payload h₁]
  have he := expression hs callLimit lowestPrecedence
  split
  · refine advance.bind fun _ _ _ => advance.bind fun _ _ _ => ?_
    split
    · exact he.bind_eq fun value => result rfl
    · exact breach _ _
  · exact result rfl
  · exact he.bind_eq fun value => result rfl

theorem trailingComment : Parallel ℓ Eq trailingComment trailingComment := by
  refine (peek 0).bind fun tok tok' ht => ?_
  rw [ℓ.kind ht]
  split
  · refine advance.bind fun comment comment' hc => ?_
    rw [ℓ.payload hc]
    split
    · exact note _
    · exact breach _ _
  · exact result rfl

theorem endLine : Parallel ℓ Eq endLine endLine := by
  refine (peek 0).bind fun tok tok' ht => ?_
  rw [ℓ.kind ht]
  cases tok.kind with
  | newLine => exact advance.bind fun _ _ _ => result rfl
  | endOfInput => exact result rfl
  | _ => exact fatal (Diagnostic.unexpected_like ht)

theorem perform (bindings : Bindings) (deed : Deed) :
    Parallel ℓ Eq (perform bindings deed) (perform bindings deed) := by
  refine of_get fun s s' h => ?_
  have hf := h.fault
  generalize s.fault = fault at hf
  generalize s'.fault = fault' at hf
  cases hf with
  | some hd =>
    have hforgive : Parallel ℓ Eq (modify fun s => { s with fault := none })
        (modify fun s => { s with fault := none }) := update fun h => { h with fault := .none }
    exact hforgive.bind_eq fun _ => (report hd).bind_eq fun _ => result rfl
  | none =>
    cases deed with
    | nothing => exact result rfl
    | print value => exact (update fun h => h.print value).bind_eq fun _ => result rfl
    | store name value => exact (note _).bind_eq fun _ => result rfl

theorem statement (hs : ∀ p p', ℓ.place p p' → scope.standIn p' = scope.standIn p) :
    Parallel ℓ Eq (statement scope) (statement scope) := by
  have hc : Parallel ℓ Eq (modify (·.cleared)) (modify (·.cleared)) :=
    update fun h => { h with fault := .none, depth := rfl }
  refine hc.bind_eq fun _ => (peek 0).bind fun tok tok' ht => ?_
  rw [ℓ.kind ht]
  cases tok.kind with
  | endOfInput => exact result rfl
  | newLine => exact advance.bind fun _ _ _ => result rfl
  | _ =>
    exact (update Script.Like.counted).bind_eq fun _ => (deed hs).bind_eq fun _ =>
      trailingComment.bind_eq fun _ => endLine.bind_eq fun _ => (perform _ _).bind_eq fun _ =>
        result rfl

end Parallel

end LineCalc
