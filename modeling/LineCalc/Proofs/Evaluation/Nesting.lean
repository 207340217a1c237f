import LineCalc.Proofs.Evaluation.Expression
import LineCalc.Proofs.Evaluation.Working

/-!
# How deep an evaluation gets

Signs, calls and parentheses are counted while they are open. Right operands are not, but the
operators inside one bind tighter than the operator before it. So one call for each precedence and
each level of nesting is enough for every expression, whatever the tokens are.

All of this is read off from one comparison: what an expression comes to hangs only on those inner
expressions that are one level deeper, or at the same depth with a higher least precedence.
-/

namespace LineCalc

namespace Eval

variable {α β : Type} {short : Prop} {d d' d'' : Nat} {scope : Scope}

/-! ### Evaluations that agree -/

/-- How an evaluation that starts at the depth `d` ends if it leaves no level that it did not enter:
at the depth `d'`, or with an error. If all was well at the start, no more levels are open than may
be. It is short of calls only under the condition `short`. -/
inductive EndsAt (short : Prop) (d d' : Nat) : EStateM.Result Stop Script α → Prop where
  | ok {a : α} {t : Script} (depth : t.depth = d') (within : d ≤ maxNesting → d' ≤ maxNesting) :
    EndsAt short d d' (.ok a t)
  | error {e : Stop} {t : Script} (level : e ≠ .breach .depth) (calls : e = .breach .calls → short)
    (within : d ≤ maxNesting → t.depth ≤ maxNesting) : EndsAt short d d' (.error e t)

/-- From every script at the depth `d` both evaluations come to the same, and end at the depth `d'`
unless there is an error. -/
def Agree (short : Prop) (d d' : Nat) (m m' : Eval α) : Prop :=
  ∀ s, s.depth = d → m s = m' s ∧ EndsAt short d d' (m s)

/-- An evaluation that ends at the depth where it starts, and is never short of calls. -/
def Level (m : Eval α) : Prop := ∀ short d, Agree short d d m m

theorem EndsAt.depth_eq {a : α} {t : Script} (h : EndsAt short d d' (.ok a t)) : t.depth = d' := by
  cases h with
  | ok depth within => exact depth

theorem EndsAt.of_error {e : Stop} {t : Script}
    (h : EndsAt short d d' (.error e t : EStateM.Result Stop Script α)) :
    e ≠ .breach .depth ∧ (e = .breach .calls → short) ∧
      (d ≤ maxNesting → t.depth ≤ maxNesting) := by
  cases h with
  | error level calls within => exact ⟨level, calls, within⟩

theorem EndsAt.of_fatal (x : Diagnostic) {t : Script}
    (ht : d ≤ maxNesting → t.depth ≤ maxNesting) :
    EndsAt short d d' (.error (.fatal x) t : EStateM.Result Stop Script α) :=
  .error (by simp) (by simp) ht

theorem EndsAt.of_breach {x : Breach} {t : Script} (hx : x ≠ .depth ∧ x ≠ .calls)
    (ht : d ≤ maxNesting → t.depth ≤ maxNesting) :
    EndsAt short d d' (.error (.breach x) t : EStateM.Result Stop Script α) :=
  .error (by simp [hx.1]) (by simp [hx.2]) ht

theorem EndsAt.of_within {r : EStateM.Result Stop Script α} (h : EndsAt short d' d'' r)
    (hd : d ≤ maxNesting → d' ≤ maxNesting) : EndsAt short d d'' r := by
  cases h with
  | ok depth within => exact .ok depth (within ∘ hd)
  | error level calls within => exact .error level calls (within ∘ hd)

theorem Agree.endsAt {m : Eval α} {s : Script} (h : Agree short d d' m m) (hs : s.depth = d) :
    EndsAt short d d' (m s) := (h s hs).2

theorem Agree.bind {m m' : Eval α} {k k' : α → Eval β} (hm : Agree short d d' m m')
    (hk : ∀ a, Agree short d' d'' (k a) (k' a)) : Agree short d d'' (m >>= k) (m' >>= k') := by
  intro s hs
  obtain ⟨he, h⟩ := hm s hs
  cases hr : m s with
  | ok a t =>
    rw [hr] at h he
    rw [bind_ok hr, bind_ok he.symm]
    cases h with
    | ok depth within =>
      obtain ⟨he', h'⟩ := hk a t depth
      exact ⟨he', h'.of_within within⟩
  | error e t =>
    rw [hr] at h he
    rw [bind_error hr, bind_error he.symm]
    cases h with
    | error level calls within => exact ⟨rfl, .error level calls within⟩

theorem agree_of_get {k k' : Script → Eval α} (h : ∀ s, Agree short d d' (k s) (k' s)) :
    Agree short d d' (get >>= k) (get >>= k') := fun s hs => h s s hs

theorem agree_fail (x : Diagnostic) : Agree short d d' (fail x : Eval α) (fail x) := by
  intro s hs
  exact ⟨rfl, .of_fatal x fun h => hs ▸ h⟩

theorem agree_breach {x : Breach} (hx : x ≠ .depth ∧ x ≠ .calls) :
    Agree short d d' (throw (.breach x) : Eval α) (throw (.breach x)) := by
  intro s hs
  exact ⟨rfl, .of_breach hx fun h => hs ▸ h⟩

/-! ### Steps that stay at their depth -/

namespace Level

theorem andThen {m : Eval α} {k k' : α → Eval β} (hm : Level m)
    (hk : ∀ a, Agree short d d' (k a) (k' a)) : Agree short d d' (m >>= k) (m >>= k') :=
  (hm short d).bind hk

theorem bind {m : Eval α} {k : α → Eval β} (hm : Level m) (hk : ∀ a, Level (k a)) :
    Level (m >>= k) := fun short d => hm.andThen fun a => hk a short d

theorem result (a : α) : Level (pure a : Eval α) := fun _ _ _ hs => ⟨rfl, .ok hs id⟩

theorem failure (x : Diagnostic) : Level (fail x : Eval α) := fun _ _ => agree_fail x

theorem payload : Level (throw (.breach .payload) : Eval α) := fun _ _ => agree_breach (by decide)

theorem update {u : Script → Script} (h : ∀ s, (u s).depth = s.depth) :
    Level (modify u : Eval Unit) := fun _ _ s hs => ⟨rfl, .ok ((h s).trans hs) id⟩

theorem depth_of_fillFrom {n : Nat} {rs : List Reading} {s t : Script}
    (h : s.fillFrom n rs = some t) : t.depth = s.depth := by
  induction rs generalizing s with
  | nil =>
    rw [Script.fillFrom] at h
    obtain ⟨last, -, rfl⟩ := Option.map_eq_some_iff.mp h
    rfl
  | cons r rs ih =>
    rw [Script.fillFrom] at h
    split at h
    · cases h
      rfl
    · rw [ih h, Script.depth_absorb]

theorem peek (n : Nat) : Level (Feed.peek n : Feed Token) := by
  intro short d s hs
  refine ⟨rfl, ?_⟩
  cases hf : s.fillFrom n s.unread with
  | none =>
    have h : Feed.peek n s = .error .noToken s := by
      rw [Feed.peek, bind_error (by rw [Feed.fill, hf])]
    rw [lift_error h]
    exact .of_breach (by decide) fun h => hs ▸ h
  | some t =>
    have hd : t.depth = d := (depth_of_fillFrom hf).trans hs
    cases hl : t.lookahead[n]? with
    | none =>
      have h : Feed.peek n s = .error .noToken t := by
        rw [Feed.peek, bind_ok (by rw [Feed.fill, hf]), get_bind, hl]
        rfl
      rw [lift_error h]
      exact .of_breach (by decide) fun h => hd ▸ h
    | some tok =>
      have h : Feed.peek n s = .ok tok t := by
        rw [Feed.peek, bind_ok (by rw [Feed.fill, hf]), get_bind, hl]
        rfl
      rw [lift_ok h]
      exact .ok hd id

theorem advance : Level (Feed.advance : Feed Token) := by
  have h : ((Feed.advance : Feed Token) : Eval Token) = (do
      let t ← (Feed.peek 0 : Feed Token)
      modify (·.shift t)
      return t) := by
    funext s
    cases hp : Feed.peek 0 s with
    | ok t s' =>
      rw [bind_ok (lift_ok hp)]
      exact lift_ok (bind_ok hp)
    | error e s' =>
      rw [bind_error (lift_error hp)]
      exact lift_error (bind_error hp)
  rw [h]
  exact (peek 0).bind fun t => (update (u := (·.shift t)) fun _ => rfl).bind fun _ => result t

theorem emit (e : Event) : Level ((Feed.emit e : Feed Unit) : Eval Unit) :=
  fun _ _ _ hs => ⟨rfl, .ok hs id⟩

theorem expect (kind : TokenKind) : Level (expect kind) := by
  refine (peek 0).bind fun t => ?_
  split
  · exact advance
  · exact failure _

theorem literal : Level literal := by
  refine advance.bind fun t => ?_
  split
  · exact result _
  · exact payload

theorem name : Level (name scope) := by
  refine advance.bind fun t => ?_
  split
  · split
    · exact result _
    · exact (update (u := (·.report _)) fun _ => rfl).bind fun _ => result _
  · exact payload

theorem settle (place : Span) (v : Except ArithError Number) : Level (settle scope place v) := by
  cases v with
  | ok value => exact result value
  | error e => exact (update (u := (·.blame _)) fun _ => rfl).bind fun _ => result _

end Level

/-- A level that is entered, and what comes then. -/
theorem agree_descend {k k' : Unit → Eval α}
    (hk : d < maxNesting → Agree short (d + 1) d' (k ()) (k' ())) :
    Agree short d d' (descend >>= k) (descend >>= k') := by
  intro s hs
  by_cases hlt : s.depth < maxNesting
  · have h : descend s = .ok () { s with depth := s.depth + 1 } := by
      rw [descend, get_bind, if_pos hlt]
      rfl
    rw [bind_ok h, bind_ok h]
    obtain ⟨he, h⟩ := hk (hs ▸ hlt) { s with depth := s.depth + 1 } (by rw [← hs])
    exact ⟨he, h.of_within fun _ => by omega⟩
  · -- a level too many fails before anything else is looked at, whatever would come then
    have h : ∀ k : Unit → Eval α,
        (descend >>= k) s = (do fail (.nesting (← (Feed.peek 0 : Feed Token))) : Eval α) s := by
      intro k
      have hd : descend s = (do fail (.nesting (← (Feed.peek 0 : Feed Token))) : Eval Unit) s := by
        rw [descend, get_bind, if_neg hlt]
      cases hp : ((Feed.peek 0 : Feed Token) : Eval Token) s with
      | ok t s' =>
        rw [bind_error (hd.trans (bind_ok hp)), bind_ok hp]
        rfl
      | error e s' => rw [bind_error (hd.trans (bind_error hp)), bind_error hp]
    rw [h, h]
    exact (Level.peek 0).andThen (fun t => agree_fail (.nesting t)) s hs

theorem agree_ascend : Agree short (d + 1) d ascend ascend := by
  intro s hs
  have h : ascend s = .ok () { s with depth := d } := by
    rw [ascend, get_bind, hs]
    rfl
  rw [h]
  exact ⟨rfl, .ok rfl Nat.le_of_succ_le⟩

/-! ### Expressions -/

section

variable {inner inner' : Nat → Eval Number} {least : Nat}

theorem agree_call (hi : d < maxNesting →
    Agree short (d + 1) (d + 1) (inner lowestPrecedence) (inner' lowestPrecedence)) :
    Agree short d d (call scope inner) (call scope inner') := by
  refine agree_descend fun hd => ?_
  refine Level.advance.andThen fun t => ?_
  split
  · refine (Level.expect .leftParen).andThen fun _ => ?_
    refine (hi hd).bind fun arg => ?_
    refine (Level.expect .rightParen).andThen fun close => ?_
    refine agree_ascend.bind fun _ => ?_
    exact (Level.emit _).andThen fun _ => Level.settle _ _ _ _
  · exact agree_breach (by decide)

theorem agree_parenthesis (hi : d < maxNesting →
    Agree short (d + 1) (d + 1) (inner lowestPrecedence) (inner' lowestPrecedence)) :
    Agree short d d (parenthesis inner) (parenthesis inner') := by
  refine agree_descend fun hd => ?_
  refine Level.advance.andThen fun _ => ?_
  refine (hi hd).bind fun value => ?_
  refine (Level.expect .rightParen).andThen fun _ => ?_
  exact agree_ascend.bind fun _ => Level.result value _ _

theorem agree_primary (hi : d < maxNesting →
    Agree short (d + 1) (d + 1) (inner lowestPrecedence) (inner' lowestPrecedence)) :
    Agree short d d (primary scope inner) (primary scope inner') := by
  refine (Level.peek 0).andThen fun t => ?_
  cases t.kind with
  | nondecimal | scientific | float | number => exact Level.literal _ _
  | ident => exact Level.name _ _
  | func => exact agree_call hi
  | leftParen => exact agree_parenthesis hi
  | _ => exact agree_fail _

/-- What an operand comes to hangs on what is one level deeper. -/
theorem agree_operand (hi : d < maxNesting → ∀ l, lowestPrecedence ≤ l → l ≤ signPrecedence →
      Agree short (d + 1) (d + 1) (inner l) (inner' l)) :
    Agree short d d (operand scope inner) (operand scope inner') := by
  refine (Level.peek 0).andThen fun t => ?_
  cases UnOp.ofKind? t.kind with
  | none => exact agree_primary fun hd => hi hd _ (by decide) (by decide)
  | some op =>
    refine agree_descend fun hd => ?_
    refine Level.advance.andThen fun sign => ?_
    refine (hi hd signPrecedence (by decide) (Nat.le_refl _)).bind fun value => ?_
    refine agree_ascend.bind fun _ => ?_
    exact (Level.emit _).andThen fun _ => Level.settle _ _ _ _

/-- What is made of an operand hangs on right operands whose operators bind tighter. -/
theorem agree_climb
    (hi : ∀ l, least < l → l ≤ signPrecedence → Agree short d d (inner l) (inner' l))
    (turns : Nat) (lhs : Number) :
    Agree short d d (climb scope inner least turns lhs) (climb scope inner' least turns lhs) := by
  induction turns generalizing lhs with
  | zero => exact agree_breach (by decide)
  | succ turns ih =>
    refine (Level.peek 0).andThen fun t => ?_
    cases BinOp.ofKind? t.kind with
    | none => exact Level.result lhs _ _
    | some op =>
      by_cases hl : op.precedence < least
      · simp only [if_pos hl]
        exact Level.result lhs _ _
      · have hlt : least < op.rightPrecedence := Nat.lt_succ_of_le (Nat.le_of_not_lt hl)
        have hle : op.rightPrecedence ≤ signPrecedence := by cases op <;> decide
        simp only [if_neg hl]
        refine Level.advance.andThen fun sign => ?_
        refine (hi _ hlt hle).bind fun rhs => ?_
        refine (Level.emit _).andThen fun _ => ?_
        exact (Level.settle _ _).andThen fun value => ih value

/-- The value of an expression, if those inside are evaluated by `inner`. -/
def chain (scope : Scope) (inner : Nat → Eval Number) (least : Nat) : Eval Number := do
  let lhs ← operand scope inner
  climb scope inner least (← get).size lhs

theorem expression_succ (calls : Nat) :
    expression scope (calls + 1) least = chain scope (expression scope calls) least := rfl

/-- What an expression comes to hangs on what is one level deeper, and on right operands at its
depth, whose operators bind tighter than its own need to. -/
theorem agree_chain
    (hright : ∀ l, least < l → l ≤ signPrecedence → Agree short d d (inner l) (inner' l))
    (henter : d < maxNesting → ∀ l, lowestPrecedence ≤ l → l ≤ signPrecedence →
      Agree short (d + 1) (d + 1) (inner l) (inner' l)) :
    Agree short d d (chain scope inner least) (chain scope inner' least) := by
  refine (agree_operand henter).bind fun lhs => ?_
  exact agree_of_get fun s => agree_climb hright s.size lhs

end

/-- An expression that comes to a value comes to it at the depth where it starts. -/
theorem agree_expression (scope : Scope) (calls least d : Nat) :
    Agree True d d (expression scope calls least) (expression scope calls least) := by
  induction calls generalizing least d with
  | zero =>
    intro s hs
    exact ⟨rfl, .error (by simp) (fun _ => trivial) fun h => hs ▸ h⟩
  | succ calls ih =>
    rw [expression_succ]
    exact agree_chain (fun l _ _ => ih l d) fun _ l _ _ => ih l (d + 1)

/-- Calls beyond those that are enough make no difference, because none of them comes about. -/
theorem agree_of_affords {calls more least : Nat} (h : Affords d calls least)
    (hl : least ≤ signPrecedence) (hm : calls ≤ more) :
    Agree False d d (expression scope calls least) (expression scope more least) := by
  induction calls generalizing more least d with
  | zero =>
    obtain ⟨n, hn⟩ := h.exists_eq hl
    cases hn
  | succ calls ih =>
    obtain ⟨more, rfl⟩ : ∃ n, more = n + 1 := ⟨more - 1, by omega⟩
    rw [expression_succ, expression_succ]
    refine agree_chain (fun l hlt hl' => ?_) fun hd l h1 hl' => ?_
    · have hright : Affords d calls l := by unfold Affords at *; omega
      exact ih hright hl' (Nat.le_of_succ_le_succ hm)
    · exact ih ((h.operand hl).enter hd h1) hl' (Nat.le_of_succ_le_succ hm)

theorem agree_wholeExpression (scope : Scope) {calls : Nat} (hc : callLimit ≤ calls) :
    Agree False 0 0 (wholeExpression scope) (expression scope calls lowestPrecedence) :=
  agree_of_affords affords_callLimit (by decide) hc

/-! ### Expressions that are open -/

/-- Where an expression is entered. -/
structure Entry where
  /-- The least precedence of its operators. -/
  least : Nat
  /-- What there is to be evaluated. -/
  script : Script

/-- The expression entered at `c` opens one at `c'` directly inside it, if those inside have so many
`calls`: what all others inside come to does not settle what it comes to itself. -/
def Opens (scope : Scope) (calls : Nat) (c c' : Entry) : Prop :=
  ∃ inner : Nat → Eval Number,
    (∀ least s, Entry.mk least s ≠ c' → inner least s = expression scope calls least s) ∧
    chain scope inner c.least c.script ≠ expression scope (calls + 1) c.least c.script

/-- With so many calls for the expression at `c`, the one at `c'` is entered while it is open, and
`active` are open then, both of these included. -/
inductive Active (scope : Scope) : (calls : Nat) → Entry → (active : Nat) → Entry → Prop where
  | here (calls : Nat) (c : Entry) : Active scope calls c 1 c
  | inside {calls active : Nat} {c c' c'' : Entry} (h : Opens scope calls c c')
    (ha : Active scope calls c' active c'') : Active scope (calls + 1) c (active + 1) c''

variable {calls active : Nat} {c c' : Entry}

/-- What an expression opens directly inside it is one level deeper, or the right operand of an
operator that binds tightly enough. -/
theorem Opens.cases (h : Opens scope calls c c') : c'.least ≤ signPrecedence ∧
    (c'.script.depth = c.script.depth ∧ c.least < c'.least ∨
      c'.script.depth = c.script.depth + 1 ∧ c.script.depth < maxNesting ∧
        lowestPrecedence ≤ c'.least) := by
  obtain ⟨inner, hin, hne⟩ := h
  refine Classical.byContradiction fun hc => ?_
  -- then the two evaluations agree on all that is opened, so nothing comes of the difference
  have hagree : ∀ l d, (∀ s, s.depth = d → Entry.mk l s ≠ c') →
      Agree True d d (expression scope calls l) (inner l) := fun l d ha s hs =>
    ⟨(hin l s (ha s hs)).symm, (agree_expression scope calls l d s hs).2⟩
  have hsame : Agree True c.script.depth c.script.depth
      (chain scope (expression scope calls) c.least) (chain scope inner c.least) := by
    refine agree_chain (fun l hlt hl => hagree l _ ?_) fun hd l h1 hl => hagree l _ ?_
    · rintro s hs rfl
      exact hc ⟨hl, .inl ⟨hs, hlt⟩⟩
    · rintro s hs rfl
      exact hc ⟨hl, .inr ⟨hs, hd, h1⟩⟩
  exact hne (hsame c.script rfl).1.symm

/-- An expression is opened if an error there is an error of the whole. -/
theorem opens_of_error (h : ∀ inner : Nat → Eval Number, ∀ e,
      inner c'.least c'.script = .error e c'.script →
      chain scope inner c.least c.script = .error e c'.script) : Opens scope calls c c' := by
  classical
  -- of two errors, one is not what the expression comes to
  obtain ⟨e, he⟩ : ∃ e, expression scope (calls + 1) c.least c.script ≠ .error e c'.script := by
    by_cases ht : expression scope (calls + 1) c.least c.script =
        .error (.breach .turns) c'.script
    · exact ⟨.breach .calls, by simp [ht]⟩
    · exact ⟨_, ht⟩
  refine ⟨fun least s => if Entry.mk least s = c' then .error e c'.script
    else expression scope calls least s, fun least s hne => if_neg hne, fun heq => he ?_⟩
  exact heq.symm.trans (h _ e (if_pos rfl))

/-- What stands behind a sign is opened, one level deeper. -/
theorem opens_sign (scope : Scope) (calls least : Nat) {s : Script} {rest : List Token}
    (o : Grammar.Sign) (h : s.ahead = o.token :: rest) (hd : s.depth < maxNesting) :
    ∃ s', s'.ahead = rest ∧ s'.depth = s.depth + 1 ∧
      Opens scope calls ⟨least, s⟩ ⟨signPrecedence, s'⟩ := by
  obtain ⟨s₁, h₁, p₁, d₁⟩ := yields_peek_zero h
  obtain ⟨s₂, h₂, p₂, d₂⟩ := yields_descend (s := s₁) (by omega)
  obtain ⟨s₃, h₃, p₃, d₃⟩ := yields_advance ((p₁.trans p₂).ahead_eq h) o.kind_ne_endOfInput
  refine ⟨s₃, (p₁.trans (p₂.trans p₃)).ahead_eq h, by omega, opens_of_error fun inner e he => ?_⟩
  have ho : operand scope inner s = .error e s₃ := by
    rw [operand, bind_ok h₁]
    simp only [o.spells]
    rw [bind_ok h₂, bind_ok h₃]
    exact bind_error he
  exact bind_error ho

/-- Behind each of a row of signs another expression is open, if there may be so many levels. -/
theorem exists_active_signs (scope : Scope) (calls : Nat) (signs : List Grammar.Sign) (least : Nat)
    {s : Script} {rest : List Token} (h : s.ahead = signs.map (·.token) ++ rest)
    (hd : s.depth + signs.length ≤ maxNesting) :
    ∃ c, Active scope (calls + signs.length) ⟨least, s⟩ (signs.length + 1) c ∧
      c.script.ahead = rest := by
  induction signs generalizing least s with
  | nil => exact ⟨⟨least, s⟩, .here _ _, h⟩
  | cons o signs ih =>
    rw [List.length_cons] at hd ⊢
    obtain ⟨s', ha, hdeep, hopens⟩ :=
      opens_sign scope (calls + signs.length) least o h (by omega)
    obtain ⟨c, hactive, hc⟩ := ih signPrecedence ha (by omega)
    exact ⟨c, .inside hopens hactive, hc⟩

/-- So many expressions are open at most as calls are enough for the first. -/
theorem Active.le_of_affords {enough : Nat} (h : Active scope calls c active c')
    (hc : Affords c.script.depth enough c.least) (hl : c.least ≤ signPrecedence)
    (hd : c.script.depth ≤ maxNesting) : active ≤ enough ∧ c'.script.depth ≤ maxNesting := by
  induction h generalizing enough with
  | here calls c =>
    obtain ⟨n, rfl⟩ := hc.exists_eq hl
    exact ⟨Nat.succ_le_succ n.zero_le, hd⟩
  | @inside calls active c c' c'' h ha ih =>
    obtain ⟨n, rfl⟩ := hc.exists_eq hl
    obtain ⟨hl', ⟨hs, hlt⟩ | ⟨hs, hlt, h1⟩⟩ := h.cases
    · have hright : Affords c'.script.depth n c'.least := by unfold Affords at *; omega
      have hin := ih hright hl' (by omega)
      omega
    · have hdeep : Affords c'.script.depth n c'.least := hs ▸ (hc.operand hl).enter hlt h1
      have hin := ih hdeep hl' (by omega)
      omega

/-! ### Statements -/

theorem agree_deed : Agree False 0 0 (deed scope) (deed scope) := by
  have he := agree_wholeExpression scope (Nat.le_refl callLimit)
  refine (Level.peek 0).andThen fun first => ?_
  refine (Level.peek 1).andThen fun second => ?_
  split
  · refine Level.advance.andThen fun _ => ?_
    refine Level.advance.andThen fun _ => ?_
    split
    · exact he.bind fun value => Level.result _ _ _
    · exact Level.payload _ _
  · exact Level.result _ _ _
  · exact he.bind fun value => Level.result _ _ _

theorem level_trailingComment : Level trailingComment := by
  refine (Level.peek 0).bind fun t => ?_
  split
  · refine Level.advance.bind fun comment => ?_
    split
    · exact Level.emit _
    · exact Level.payload
  · exact Level.result ()

theorem level_endLine : Level endLine := by
  refine (Level.peek 0).bind fun t => ?_
  cases t.kind with
  | newLine => exact Level.advance.bind fun _ => Level.result ()
  | endOfInput => exact Level.result ()
  | _ => exact Level.failure _

theorem level_perform (bindings : Bindings) (todo : Deed) : Level (perform bindings todo) := by
  intro short d
  refine agree_of_get fun s => ?_
  cases s.fault with
  | some x =>
    refine (Level.update (u := ({ · with fault := none })) fun _ => rfl).andThen fun _ => ?_
    exact (Level.update (u := (·.report x)) fun _ => rfl).andThen fun _ => Level.result _ _ _
  | none =>
    cases todo with
    | nothing => exact Level.result _ _ _
    | print value =>
      exact (Level.update (u := (·.print _)) fun _ => rfl).andThen fun _ => Level.result _ _ _
    | store name value => exact (Level.emit _).andThen fun _ => Level.result _ _ _

/-- A statement starts without an open level. It ends without one, or with an error and no more of
them than may be. -/
theorem endsAt_statement (scope : Scope) (s : Script) : EndsAt False 0 0 (statement scope s) := by
  change EndsAt False 0 0 (((Feed.peek 0 : Feed Token) >>= _ : Eval (Option Bindings)) s.cleared)
  refine Agree.endsAt (s := s.cleared) ((Level.peek 0).andThen fun t => ?_) rfl
  cases t.kind with
  | endOfInput => exact Level.result _ _ _
  | newLine => exact Level.advance.andThen fun _ => Level.result _ _ _
  | _ =>
    refine (Level.update (u := (·.counted)) fun _ => rfl).andThen fun _ => ?_
    refine agree_deed.bind fun todo => ?_
    refine level_trailingComment.andThen fun _ => ?_
    refine level_endLine.andThen fun _ => ?_
    exact (level_perform _ todo).andThen fun b => Level.result _ _ _

/-- **Recursion is bounded, whatever the tokens and the bindings are.** A statement leaves no level
that it did not enter, has no more of them open than may be, and is never short of calls; the tokens
may run out anywhere, so this holds at every place where one is looked for. An expression or an
operand that comes to a value comes to it at the depth where it starts. And with whatever calls a
whole expression is evaluated, no more than three for each depth are open at a time, so that calls
beyond these make no difference; behind a row of signs there are as many open as there are levels. -/
theorem nesting_bounded (scope : Scope) :
    (∀ s,
      (∀ r w, Work.statement scope.standIn ⟨s, scope.bindings⟩ = .ok r w → w.script.depth = 0) ∧
      ∀ e w, Work.statement scope.standIn ⟨s, scope.bindings⟩ = .error e w →
        w.script.depth ≤ maxNesting ∧ e ≠ .breach .depth ∧ e ≠ .breach .calls) ∧
    (∀ calls s v t, (∃ least, expression scope calls least s = .ok v t) ∨
        operand scope (expression scope calls) s = .ok v t ∨
        primary scope (expression scope calls) s = .ok v t → t.depth = s.depth) ∧
    ∀ s, s.depth = 0 →
      (∀ calls active c, Active scope calls ⟨lowestPrecedence, s⟩ active c →
        active ≤ 3 * (maxNesting + 1) ∧ c.script.depth ≤ maxNesting) ∧
      (∀ calls (signs : List Grammar.Sign) rest, s.ahead = signs.map (·.token) ++ rest →
        signs.length ≤ maxNesting → ∃ c, Active scope (calls + signs.length)
          ⟨lowestPrecedence, s⟩ (signs.length + 1) c ∧ c.script.ahead = rest) ∧
      (∀ calls, callLimit ≤ calls →
        expression scope calls lowestPrecedence s = wholeExpression scope s) ∧
      ∀ t, wholeExpression scope s ≠ .error (.breach .calls) t := by
  have hi := agree_expression scope
  have he := agree_wholeExpression scope (Nat.le_refl callLimit)
  refine ⟨fun s => ⟨fun r w h => ?_, fun e w h => ?_⟩, ?_,
    fun s hs => ⟨?_, fun calls signs rest ha hn => ?_, ?_, fun t h => ?_⟩⟩
  · obtain ⟨r', h', -⟩ := Work.exists_of_statement_ok h
    exact (h' ▸ endsAt_statement scope s).depth_eq
  · have h' := Work.statement_eq_error h
    obtain ⟨level, calls, within⟩ := (h' ▸ endsAt_statement scope s).of_error
    exact ⟨within (Nat.zero_le _), level, calls⟩
  · rintro calls s v t (⟨least, h⟩ | h | h)
    · exact (h ▸ (hi calls least s.depth).endsAt rfl).depth_eq
    · exact (h ▸ Agree.endsAt (agree_operand fun _ l _ _ => hi calls l _) rfl).depth_eq
    · exact (h ▸ Agree.endsAt (agree_primary fun _ => hi calls _ _) rfl).depth_eq
  · exact fun calls active c h =>
      h.le_of_affords (hs ▸ affords_callLimit) (Nat.le_add_left 1 2) (hs ▸ Nat.zero_le _)
  · exact exists_active_signs scope calls signs lowestPrecedence ha (by omega)
  · exact fun calls hc => (agree_wholeExpression scope hc s hs).1.symm
  · exact (h ▸ he.endsAt hs).of_error.2.1 rfl

end Eval

end LineCalc
