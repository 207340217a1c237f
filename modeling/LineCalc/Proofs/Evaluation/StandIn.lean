import LineCalc.Proofs.Evaluation.Working

/-!
# What stands in for a failed operation

Where an operation has no value, evaluation goes on with a number in its place. With another number
there, two evaluations of the same tokens have different numbers in hand from then on. They still
read, take and report the same, because nothing but a fault comes of a number while a statement is
read, and the first fault is kept. And in the end a statement that has a fault drops its number.

So what is known of two such evaluations has two parts: some of it always holds, and the rest while
there is no fault.
-/

namespace LineCalc

open Eval

/-- The script with another log. -/
def Script.relogged (s : Script) (log : List Event) : Script := { s with log := log }

/-- `s'` is `s` with another log. -/
def Relogged (s s' : Script) : Prop := ∃ log, s' = s.relogged log

variable {α β : Type} {s s' t : Script} {scope : Scope} {standIn : Span → Number}

/-! ### Looking at tokens -/

namespace Script

theorem fillFrom_relogged (s : Script) (n : Nat) (rs : List Reading) (log : List Event) :
    ∃ log', (s.relogged log).fillFrom n rs = (s.fillFrom n rs).map (relogged · log') := by
  induction rs generalizing s log with
  | nil =>
    refine ⟨log, ?_⟩
    rw [fillFrom, fillFrom, Option.map_map]
    rfl
  | cons r rs ih =>
    rw [fillFrom, fillFrom]
    by_cases hn : n < s.lookahead.length
    · rw [if_pos hn, if_pos (show n < (s.relogged log).lookahead.length from hn)]
      exact ⟨log, rfl⟩
    · obtain ⟨log', ha⟩ : ∃ log', (s.relogged log).absorb r = (s.absorb r).relogged log' := by
        obtain ⟨chunks, item⟩ := r
        cases item <;> exact ⟨_, rfl⟩
      obtain ⟨log'', h⟩ := ih (s.absorb r) log'
      refine ⟨log'', ?_⟩
      rw [if_neg hn, if_neg (show ¬n < (s.relogged log).lookahead.length from hn), ha, h]

theorem fault_absorb (s : Script) (r : Reading) : (s.absorb r).fault = s.fault := by
  unfold absorb
  split <;> rfl

theorem fault_of_fillFrom {n : Nat} {rs : List Reading} (h : s.fillFrom n rs = some t) :
    t.fault = s.fault := by
  induction rs generalizing s with
  | nil =>
    rw [fillFrom] at h
    obtain ⟨last, -, rfl⟩ := Option.map_eq_some_iff.mp h
    rfl
  | cons r rs ih =>
    rw [fillFrom] at h
    split at h
    · cases h
      rfl
    · rw [ih h, fault_absorb]

end Script

/-! ### Two evaluations -/

/-- Both end in the same way, but for the log, and with results that are alike. Without a fault `q`
holds of the results. -/
inductive SameEnd {ε : Type} (alike q : α → α → Prop) :
    EStateM.Result ε Script α → EStateM.Result ε Script α → Prop where
  | ok {a a' : α} {t t' : Script} (h : Relogged t t') (ha : alike a a')
      (hq : t.fault = none → q a a') : SameEnd alike q (.ok a t) (.ok a' t')
  | error {e : ε} {t t' : Script} (h : Relogged t t') : SameEnd alike q (.error e t) (.error e t')

theorem SameEnd.ok_or_error {ε : Type} {alike q : α → α → Prop}
    {r r' : EStateM.Result ε Script α} (h : SameEnd alike q r r') :
    (∃ a a' t t', r = .ok a t ∧ r' = .ok a' t' ∧ Relogged t t' ∧ alike a a' ∧
      (t.fault = none → q a a')) ∨
    ∃ e t t', r = .error e t ∧ r' = .error e t' ∧ Relogged t t' := by
  cases h with
  | ok h ha hq => exact .inl ⟨_, _, _, _, rfl, rfl, h, ha, hq⟩
  | error h => exact .inr ⟨_, _, _, rfl, rfl, h⟩

/-- From scripts that differ in their logs, and of which `p` holds if there is no fault, `m` and
`m'` end in the same way. -/
def Abreast {ε : Type} (p : Prop) (m m' : EStateM ε Script α) (alike q : α → α → Prop) : Prop :=
  ∀ s s', Relogged s s' → (s.fault = none → p) → SameEnd alike q (m s) (m' s')

/-- A step with a result that both evaluations have. It leaves alone what is known of them. -/
def Steady {ε : Type} (m : EStateM ε Script α) : Prop :=
  ∀ p, Abreast p m m (· = ·) (fun _ _ => p)

/-- Two evaluations of a number, which both have unless there is a fault. -/
def Shrouded (m m' : Eval α) : Prop :=
  ∀ p, Abreast p m m' (fun _ _ => True) (fun a a' => p ∧ a = a')

theorem Abreast.bind {ε : Type} {p : Prop} {m m' : EStateM ε Script α}
    {k k' : α → EStateM ε Script β} {alike q : α → α → Prop} {alike' q' : β → β → Prop}
    (hm : Abreast p m m' alike q)
    (hk : ∀ a a', alike a a' → Abreast (q a a') (k a) (k' a') alike' q') :
    Abreast p (m >>= k) (m' >>= k') alike' q' := by
  intro s s' h hp
  obtain ⟨a, a', t, t', hr, hr', ht, ha, hq⟩ | ⟨e, t, t', hr, hr', ht⟩ := (hm s s' h hp).ok_or_error
  · rw [bind_ok hr, bind_ok hr']
    exact hk a a' ha t t' ht hq
  · rw [bind_error hr, bind_error hr']
    exact .error ht

theorem Abreast.mono {ε : Type} {p p' : Prop} {m m' : EStateM ε Script α}
    {alike q q' : α → α → Prop} (h : Abreast p m m' alike q) (hp : p' → p) (hq : ∀ a a', q a a' → q' a a') :
    Abreast p' m m' alike q' := by
  intro s s' hs hp'
  obtain ⟨a, a', t, t', hr, hr', ht, ha, hq'⟩ | ⟨e, t, t', hr, hr', ht⟩ :=
    (h s s' hs fun hf => hp (hp' hf)).ok_or_error
  · rw [hr, hr']
    exact .ok ht ha fun hf => hq _ _ (hq' hf)
  · rw [hr, hr']
    exact .error ht

theorem abreast_of_get {ε : Type} {p : Prop} {k k' : Script → EStateM ε Script α}
    {alike q : α → α → Prop}
    (h : ∀ s s', Relogged s s' → Abreast p (k s) (k' s') alike q) :
    Abreast p (get >>= k) (get >>= k') alike q := fun s s' hs => h s s' hs s s' hs

/-! ### Steps with one result -/

namespace Steady

theorem andThen {ε : Type} {p : Prop} {m : EStateM ε Script α} {k k' : α → EStateM ε Script β}
    {alike q : β → β → Prop} (hm : Steady m) (hk : ∀ a, Abreast p (k a) (k' a) alike q) :
    Abreast p (m >>= k) (m >>= k') alike q :=
  (hm p).bind fun a _ h => h ▸ hk a

theorem bind {ε : Type} {m : EStateM ε Script α} {k : α → EStateM ε Script β} (hm : Steady m)
    (hk : ∀ a, Steady (k a)) : Steady (m >>= k) :=
  fun p => hm.andThen fun a => hk a p

theorem result {ε : Type} (a : α) : Steady (pure a : EStateM ε Script α) :=
  fun _ _ _ h hp => .ok h rfl hp

theorem failure {ε : Type} (e : ε) : Steady (throw e : EStateM ε Script α) :=
  fun _ _ _ h _ => .error h

theorem of_get {ε : Type} {k : Script → EStateM ε Script α}
    (h : ∀ (s : Script) (log : List Event), k (s.relogged log) = k s)
    (hk : ∀ s, Steady (k s)) : Steady (get >>= k) := by
  intro p
  refine abreast_of_get fun s s' hs => ?_
  obtain ⟨log, rfl⟩ := hs
  rw [h]
  exact hk s p

/-- A change of the script that looks at neither the log nor the fault. -/
theorem update {ε : Type} {u : Script → Script}
    (h : ∀ s log, Relogged (u s) (u (s.relogged log))) (hf : ∀ s, (u s).fault = s.fault) :
    Steady (modify u : EStateM ε Script Unit) := by
  rintro p s s' ⟨log, rfl⟩ hp
  exact .ok (h s log) rfl fun hn => hp ((hf s).symm.trans hn)

theorem of_feed {m : Feed α} (h : Steady m) : Steady (m : Eval α) := by
  intro p s s' hs hp
  obtain ⟨a, a', t, t', hr, hr', ht, ha, hq⟩ | ⟨e, t, t', hr, hr', ht⟩ :=
    (h p s s' hs hp).ok_or_error
  · rw [lift_ok hr, lift_ok hr']
    exact .ok ht ha hq
  · rw [lift_error hr, lift_error hr']
    exact .error ht

theorem fill (n : Nat) : Steady (Feed.fill n) := by
  rintro p s s' ⟨log, rfl⟩ hp
  obtain ⟨log', h⟩ := s.fillFrom_relogged n s.unread log
  have hu : (s.relogged log).unread = s.unread := rfl
  unfold Feed.fill
  rw [hu, h]
  cases hf : s.fillFrom n s.unread with
  | none => exact .error ⟨log, rfl⟩
  | some t => exact .ok ⟨log', rfl⟩ rfl fun hn => hp ((Script.fault_of_fillFrom hf).symm.trans hn)

theorem peek (n : Nat) : Steady (Feed.peek n) := by
  refine (fill n).bind fun _ => of_get (fun _ _ => rfl) fun s => ?_
  split
  · exact result _
  · exact failure _

theorem advance : Steady Feed.advance := by
  refine (peek 0).bind fun tok => ?_
  have hshift : Steady (modify (·.shift tok) : Feed Unit) :=
    update (fun _ log => ⟨_ :: log, rfl⟩) fun _ => rfl
  exact hshift.bind fun _ => result tok

theorem note {p : Prop} {alike q : α → α → Prop} (e e' : Event) {k k' : Unit → Eval α}
    (h : Abreast p (k ()) (k' ()) alike q) :
    Abreast p (((Feed.emit e : Feed Unit) : Eval Unit) >>= k)
      (((Feed.emit e' : Feed Unit) : Eval Unit) >>= k') alike q := by
  rintro s s' ⟨log, rfl⟩ hp
  exact h _ _ ⟨e' :: log, rfl⟩ hp

theorem skipLine (turns : Nat) : Steady (Feed.skipLine turns) := by
  induction turns with
  | zero => exact failure _
  | succ turns ih =>
    refine (peek 0).bind fun tok => ?_
    cases tok.kind with
    | endOfInput => exact result ()
    | newLine => exact advance.bind fun _ => result ()
    | _ => exact advance.bind fun _ => ih

theorem expect (kind : TokenKind) : Steady (expect kind) := by
  refine (of_feed (peek 0)).bind fun tok => ?_
  split
  · exact of_feed advance
  · exact failure _

theorem descend : Steady descend := by
  refine of_get (fun _ _ => rfl) fun s => ?_
  split
  · exact update (fun _ log => ⟨log, rfl⟩) fun _ => rfl
  · exact (of_feed (peek 0)).bind fun tok => failure _

theorem ascend : Steady ascend := by
  refine of_get (fun _ _ => rfl) fun s => ?_
  split
  · exact failure _
  · exact update (fun _ log => ⟨log, rfl⟩) fun _ => rfl

theorem literal : Steady literal := by
  refine (of_feed advance).bind fun tok => ?_
  split
  · exact result _
  · exact failure _

theorem report (d : Diagnostic) : Steady (modify (·.report d) : Eval Unit) :=
  update (fun _ log => ⟨_ :: log, rfl⟩) fun _ => rfl

/-- The value of a name does not hang on what stands in for failed operations. -/
theorem name : Steady (name scope) := by
  refine (of_feed advance).bind fun tok => ?_
  split
  · split
    · exact result _
    · exact (report _).bind fun _ => result _
  · exact failure _

theorem trailingComment : Steady trailingComment := by
  refine (of_feed (peek 0)).bind fun tok => ?_
  split
  · refine (of_feed advance).bind fun comment => ?_
    split
    · exact of_feed (update (fun _ log => ⟨_ :: log, rfl⟩) fun _ => rfl)
    · exact failure _
  · exact result ()

theorem endLine : Steady endLine := by
  refine (of_feed (peek 0)).bind fun tok => ?_
  cases tok.kind with
  | newLine => exact (of_feed advance).bind fun _ => result ()
  | endOfInput => exact result ()
  | _ => exact failure _

end Steady

/-! ### Expressions -/

namespace Shrouded

open Steady

/-- What is certain is also known if there is no fault. -/
theorem of_steady {m : Eval α} (h : Steady m) : Shrouded m m := by
  intro p s s' hs hp
  obtain ⟨a, a', t, t', hr, hr', ht, ha, hq⟩ | ⟨e, t, t', hr, hr', ht⟩ :=
    (h p s s' hs hp).ok_or_error
  · rw [hr, hr']
    exact .ok ht trivial fun hf => ⟨hq hf, ha⟩
  · rw [hr, hr']
    exact .error ht

variable {inner inner' : Nat → Eval Number} {p : Prop}

/-- What is made of a number that both have unless there is a fault. -/
theorem result (f : α → β) (a a' : α) :
    Abreast (p ∧ a = a') (pure (f a) : Eval β) (pure (f a')) (fun _ _ => True)
      (fun x x' => p ∧ x = x') := by
  intro s s' hs hp
  exact .ok hs trivial fun hf => (hp hf).imp_right (congrArg f)

/-- An operation on numbers that are the same unless there is a fault: there is one afterwards in
both evaluations or in neither, and the first fault is the same. -/
theorem settle {v v' : Except ArithError Number} (place : Span) (hv : p → v = v') :
    Abreast p (settle scope place v) (settle ⟨scope.bindings, standIn⟩ place v')
      (fun _ _ => True) (fun a a' => p ∧ a = a') := by
  rintro s s' ⟨log, rfl⟩ hp
  cases hf : s.fault with
  | none =>
    obtain rfl := hv (hp hf)
    cases v with
    | ok value => exact .ok ⟨log, rfl⟩ trivial fun _ => ⟨hp hf, rfl⟩
    | error e =>
      refine .ok ⟨log, rfl⟩ trivial fun hn => ?_
      have hb : (s.blame ⟨.arithmetic e, place⟩).fault = some ⟨.arithmetic e, place⟩ := by
        rw [Script.blame, hf]
        rfl
      exact absurd (hb.symm.trans hn) (by simp)
  | some d =>
    -- whatever comes of the operation, the earlier fault stays
    have hb : ∀ x, s.blame x = s := by
      intro x
      rw [Script.blame, hf, Option.some_or, ← hf]
    have hb' : ∀ x, (s.relogged log).blame x = s.relogged log := fun x =>
      congrArg (Script.relogged · log) (hb x)
    have hend : ∀ scope : Scope, ∀ v u, (∀ x, u.blame x = u) →
        ∃ a, Eval.settle scope place v u = .ok a u := by
      intro scope v u hu
      cases v with
      | ok value => exact ⟨value, rfl⟩
      | error e =>
        refine ⟨scope.standIn place, ?_⟩
        show EStateM.Result.ok _ (u.blame _) = _
        rw [hu]
    obtain ⟨a, ha⟩ := hend scope v s hb
    obtain ⟨a', ha'⟩ := hend ⟨scope.bindings, standIn⟩ v' (s.relogged log) hb'
    rw [ha, ha']
    exact .ok ⟨log, rfl⟩ trivial fun hn => absurd (hf.symm.trans hn) (by simp)

theorem settle_apply (f : Number → Except ArithError Number) (place : Span) (value value' : Number) :
    Abreast (p ∧ value = value') (Eval.settle scope place (f value))
      (Eval.settle ⟨scope.bindings, standIn⟩ place (f value'))
      (fun _ _ => True) (fun a a' => p ∧ a = a') := by
  have hf : p ∧ value = value' → f value = f value' := fun h => congrArg f h.2
  exact (settle place hf).mono id fun a a' h => ⟨h.1.1, h.2⟩

theorem call (hi : ∀ least, Shrouded (inner least) (inner' least)) :
    Shrouded (call scope inner) (call ⟨scope.bindings, standIn⟩ inner') := by
  intro p
  refine Steady.descend.andThen fun _ => ?_
  refine (of_feed advance).andThen fun tok => ?_
  split
  · refine (Steady.expect .leftParen).andThen fun _ => ?_
    refine (hi _ p).bind fun arg arg' _ => ?_
    refine (Steady.expect .rightParen).andThen fun close => ?_
    refine Steady.ascend.andThen fun _ => ?_
    exact note _ _ (settle_apply _ _ arg arg')
  · exact Shrouded.of_steady (failure _) p

theorem parenthesis (hi : ∀ least, Shrouded (inner least) (inner' least)) :
    Shrouded (parenthesis inner) (parenthesis inner') := by
  intro p
  refine Steady.descend.andThen fun _ => ?_
  refine (of_feed advance).andThen fun _ => ?_
  refine (hi _ p).bind fun value value' _ => ?_
  refine (Steady.expect .rightParen).andThen fun _ => ?_
  exact Steady.ascend.andThen fun _ => result id value value'

theorem primary (hi : ∀ least, Shrouded (inner least) (inner' least)) :
    Shrouded (primary scope inner) (primary ⟨scope.bindings, standIn⟩ inner') := by
  intro p
  refine (of_feed (peek 0)).andThen fun tok => ?_
  cases tok.kind with
  | nondecimal | scientific | float | number => exact of_steady literal p
  | ident => exact of_steady name p
  | func => exact call hi p
  | leftParen => exact parenthesis hi p
  | _ => exact of_steady (failure _) p

theorem operand (hi : ∀ least, Shrouded (inner least) (inner' least)) :
    Shrouded (operand scope inner) (operand ⟨scope.bindings, standIn⟩ inner') := by
  intro p
  refine (of_feed (peek 0)).andThen fun tok => ?_
  cases UnOp.ofKind? tok.kind with
  | none => exact primary hi p
  | some op =>
    refine Steady.descend.andThen fun _ => ?_
    refine (of_feed advance).andThen fun sign => ?_
    refine (hi _ p).bind fun value value' _ => ?_
    refine Steady.ascend.andThen fun _ => ?_
    exact note _ _ (settle_apply _ _ value value')

/-- Which operators are applied does not hang on the numbers in hand. -/
theorem climb (hi : ∀ least, Shrouded (inner least) (inner' least)) (least turns : Nat)
    (lhs lhs' : Number) :
    Abreast (p ∧ lhs = lhs') (climb scope inner least turns lhs)
      (climb ⟨scope.bindings, standIn⟩ inner' least turns lhs')
      (fun _ _ => True) (fun a a' => p ∧ a = a') := by
  induction turns generalizing lhs lhs' with
  | zero =>
    intro s s' hs _
    exact .error hs
  | succ turns ih =>
    refine (of_feed (peek 0)).andThen fun tok => ?_
    cases BinOp.ofKind? tok.kind with
    | none => exact result id lhs lhs'
    | some op =>
      -- the operator decides, not the number in hand
      by_cases hl : op.precedence < least
      · simp only [if_pos hl]
        exact result id lhs lhs'
      · simp only [if_neg hl]
        refine (of_feed advance).andThen fun sign => ?_
        refine (hi _ _).bind fun rhs rhs' _ => note _ _ ?_
        refine Abreast.bind (settle sign.span fun h => ?_) fun value value' _ => ?_
        · obtain ⟨⟨-, rfl⟩, rfl⟩ := h
          rfl
        · exact (ih value value').mono (fun h => ⟨h.1.1.1, h.2⟩) fun _ _ h => h

theorem expression (scope : Scope) (standIn : Span → Number) (calls least : Nat) :
    Shrouded (expression scope calls least) (expression ⟨scope.bindings, standIn⟩ calls least) := by
  induction calls generalizing least with
  | zero => exact of_steady (failure _)
  | succ calls ih =>
    intro p
    refine (operand ih p).bind fun lhs lhs' _ => abreast_of_get ?_
    rintro s s' ⟨log, rfl⟩
    exact climb ih least s.size lhs lhs'

/-! ### Statements -/

/-- What is stored or printed is the same unless there is a fault. -/
theorem deed (scope : Scope) (standIn : Span → Number) :
    Shrouded (deed scope) (deed ⟨scope.bindings, standIn⟩) := by
  intro p
  have he := expression scope standIn callLimit lowestPrecedence p
  refine (of_feed (peek 0)).andThen fun first => ?_
  refine (of_feed (peek 1)).andThen fun second => ?_
  split
  · refine (of_feed advance).andThen fun _ => ?_
    refine (of_feed advance).andThen fun _ => ?_
    split
    · exact he.bind fun value value' _ => result _ value value'
    · exact of_steady (failure _) p
  · exact of_steady (Steady.result _) p
  · exact he.bind fun value value' _ => result _ value value'

/-- A line with a fault is reported, and what it asks for is not looked at. -/
theorem perform (bindings : Bindings) (todo todo' : Deed) :
    Abreast (p ∧ todo = todo') (perform bindings todo) (perform bindings todo')
      (· = ·) (fun _ _ => True) := by
  rintro s s' ⟨log, rfl⟩ hp
  have hfault : (s.relogged log).fault = s.fault := rfl
  unfold Eval.perform
  rw [get_bind, get_bind, hfault]
  cases hf : s.fault with
  | some d => exact .ok (q := fun _ _ => True) ⟨_ :: log, rfl⟩ rfl fun _ => trivial
  | none =>
    obtain ⟨-, rfl⟩ := hp hf
    cases todo with
    | nothing => exact .ok (q := fun _ _ => True) ⟨log, rfl⟩ rfl fun _ => trivial
    | print value => exact .ok (q := fun _ _ => True) ⟨_ :: log, rfl⟩ rfl fun _ => trivial
    | store name value => exact .ok (q := fun _ _ => True) ⟨_ :: log, rfl⟩ rfl fun _ => trivial

/-- A statement does the same, but for the log. -/
theorem statement (scope : Scope) (standIn : Span → Number) :
    Abreast True (statement scope) (statement ⟨scope.bindings, standIn⟩) (· = ·)
      (fun _ _ => True) := by
  have hc : Abreast True (modify (·.cleared) : Eval Unit) (modify (·.cleared)) (· = ·)
      (fun _ _ => True) := by
    rintro s s' ⟨log, rfl⟩ -
    exact .ok (q := fun _ _ => True) ⟨log, rfl⟩ rfl fun _ => trivial
  refine hc.bind fun _ _ _ => (of_feed (peek 0)).andThen fun tok => ?_
  have hcount : Steady (modify (·.counted) : Eval Unit) :=
    update (fun _ log => ⟨log, rfl⟩) fun _ => rfl
  cases tok.kind with
  | endOfInput => exact Steady.result _ True
  | newLine => exact (of_feed advance).andThen fun _ => Steady.result _ True
  | _ =>
    refine hcount.andThen fun _ => ?_
    refine (deed scope standIn True).bind fun todo todo' _ => ?_
    refine trailingComment.andThen fun _ => ?_
    refine endLine.andThen fun _ => ?_
    refine (perform scope.bindings todo todo').bind fun b b' hb => ?_
    obtain rfl : b = b' := hb
    exact Steady.result _ True

end Shrouded

end LineCalc
