import LineCalc.Proofs.Grammar.Gap

/-!
# Every line leads somewhere

The tokens of a line either start with a whole expression, behind which no operator goes on with it,
or they lead into a gap, where something else comes than what is wanted. The induction is on the
length of what is still to be parsed.
-/

namespace LineCalc

/-- Well-formed tokens among which a line ends. -/
structure Readable (toks : List Token) : Prop where
  ends : ∃ t ∈ toks, t.kind.endsLine = true
  wellFormed : ∀ t ∈ toks, t.WellFormed

namespace Readable

variable {t : Token} {front toks : List Token}

theorem exists_eq_cons (h : Readable toks) : ∃ t rest, toks = t :: rest := by
  obtain ⟨t, ht, -⟩ := h.ends
  exact List.exists_cons_of_ne_nil (List.ne_nil_of_mem ht)

theorem of_append (h : Readable (front ++ toks)) (hf : ∀ t ∈ front, t.kind.endsLine = false) :
    Readable toks where
  ends := by
    obtain ⟨t, ht, hk⟩ := h.ends
    obtain ht | ht := List.mem_append.mp ht
    · simp [hf t ht] at hk
    · exact ⟨t, ht, hk⟩
  wellFormed t ht := h.wellFormed t (List.mem_append_right _ ht)

theorem tail (h : Readable (t :: toks)) (ht : t.kind.endsLine = false) : Readable toks :=
  of_append (show Readable ([t] ++ toks) from h) (by simpa using ht)

theorem head (h : Readable (t :: toks)) : t.WellFormed := h.wellFormed t List.mem_cons_self

end Readable

namespace Grammar

variable {st : Stratum} {d : Nat}

/-! ### Where tokens lead -/

/-- With `d` levels open, the tokens start with an expression of the stratum, and no operator of it
follows. -/
def Starts (d : Nat) (st : Stratum) (toks : List Token) : Prop :=
  ∃ (e : Phrase st) (next : Token) (rest : List Token), toks = e.tokens ++ next :: rest ∧
    d + e.height ≤ maxNesting ∧
    ∀ op, BinOp.ofKind? next.kind = some op → op.precedence < st.precedence

/-- With `d` levels open, the tokens lead into a gap in an expression of the stratum, where
something else comes than what is wanted. -/
def Strays (d : Nat) (st : Stratum) (toks : List Token) : Prop :=
  ∃ (g : Gap st) (w : Want) (t : Token) (rest : List Token) (diag : Diagnostic),
    toks = g.tokens ++ (w.tokens ++ t :: rest) ∧ d + g.height ≤ maxNesting ∧
    d + g.levels + w.height ≤ maxNesting ∧ w.Blames (d + g.levels) t diag

/-- Tokens lead to one or the other. -/
def Leads (d : Nat) (st : Stratum) (toks : List Token) : Prop :=
  Starts d st toks ∨ Strays d st toks

theorem strays_here {t : Token} {rest : List Token} {diag : Diagnostic} (hd : d ≤ maxNesting)
    (h : Want.operand.Blames d t diag) : Strays d .operand (t :: rest) :=
  ⟨.here, .operand, t, rest, diag, rfl, hd, hd, h⟩

/-- A gap one level deeper. -/
theorem Strays.enter {toks : List Token} (front : List Token) (wrap : Gap st → Gap .operand)
    (ht : ∀ g, (wrap g).tokens = front ++ g.tokens) (hl : ∀ g, (wrap g).levels = g.levels + 1)
    (hh : ∀ g, (wrap g).height = g.height + 1) (h : Strays (d + 1) st toks) :
    Strays d .operand (front ++ toks) := by
  obtain ⟨g, w, t, rest, diag, rfl, hn, hi, hb⟩ := h
  have e : d + (wrap g).levels = d + 1 + g.levels := by rw [hl]; omega
  refine ⟨wrap g, w, t, rest, diag, by rw [ht, List.append_assoc], by rw [hh]; omega, ?_, ?_⟩
  · rw [e]
    exact hi
  · rw [e]
    exact hb

/-- Any operator ends an operand. -/
theorem precedence_lt_operand {kind : TokenKind} (op : BinOp) (_ : BinOp.ofKind? kind = some op) :
    op.precedence < Stratum.operand.precedence := Nat.lt_succ_of_le op.precedence_le

theorem isOperator_eq_false {kind : TokenKind}
    (h : ∀ op, BinOp.ofKind? kind = some op → op.precedence < Stratum.sum.precedence) :
    kind.isOperator = false := by
  cases hk : BinOp.ofKind? kind with
  | none => exact BinOp.ofKind?_eq_none_iff.mp hk
  | some op => exact absurd (h op hk) (Nat.not_lt_of_le op.precedence_pos)

section

variable {t : Token} {rest : List Token}

theorem starts_operand (e : Phrase .primary) (he : e.tokens = [t]) (hh : e.height = 0)
    (hd : d ≤ maxNesting) (hr : Readable rest) : Starts d .operand (t :: rest) := by
  obtain ⟨next, rest, rfl⟩ := hr.exists_eq_cons
  refine ⟨.primary e, next, rest, ?_, ?_, precedence_lt_operand⟩
  · rw [Phrase.tokens, he]
    rfl
  · rw [Phrase.height, hh]
    exact hd

theorem leads_literal (ht : t.kind.isLiteral = true) (hw : t.WellFormed) (hd : d ≤ maxNesting)
    (hr : Readable rest) : Leads d .operand (t :: rest) := by
  obtain ⟨n, hn⟩ : ∃ n, t.payload = .number n := by
    unfold Token.WellFormed at hw
    cases hk : t.kind <;> simp_all [TokenKind.isLiteral]
  exact .inl (starts_operand (.literal ⟨t, n, ht, hn⟩) rfl rfl hd hr)

theorem leads_name (ht : t.kind = .ident) (hw : t.WellFormed) (hd : d ≤ maxNesting)
    (hr : Readable rest) : Leads d .operand (t :: rest) := by
  obtain ⟨name, hn⟩ : ∃ name, t.payload = .ident name := by simpa [Token.WellFormed, ht] using hw
  exact .inl (starts_operand (.name ⟨t, name, ht, hn⟩) rfl rfl hd hr)

theorem leads_sign (ht : t.kind.isSign = true) (hr : Leads (d + 1) .operand rest) :
    Leads d .operand (t :: rest) := by
  let o : Sign := ⟨t, ht⟩
  obtain ⟨u, next, rest, rfl, hh, hn⟩ | hs := hr
  · exact .inl ⟨.sign o u, next, rest, rfl, by simp only [Phrase.height]; omega, hn⟩
  · exact .inr (hs.enter [t] (.sign o) (fun _ => rfl) (fun _ => rfl)
      fun _ => rfl)

/-- A keyword, before what may be its argument in parentheses. -/
theorem leads_call (ht : t.kind = .func) (hw : t.WellFormed) (hd : d < maxNesting)
    (hr : Readable rest)
    (ih : ∀ toks, toks.length < rest.length → Readable toks → Leads (d + 1) .sum toks) :
    Leads d .operand (t :: rest) := by
  obtain ⟨f, hf⟩ : ∃ f, t.payload = .func f := by simpa [Token.WellFormed, ht] using hw
  let f : Keyword := ⟨t, f, ht, hf⟩
  obtain ⟨b, rest, rfl⟩ := hr.exists_eq_cons
  -- what may be missing: the opening parenthesis, then the closing one
  by_cases hb : b.kind = .leftParen
  · let opening : Opening := ⟨b, hb⟩
    have hr' : Readable rest := hr.tail (by simp [hb, TokenKind.endsLine])
    obtain ⟨e, next, rest, rfl, hh, hn⟩ | hs := ih rest (Nat.lt_succ_self _) hr'
    · by_cases hc : next.kind = .rightParen
      · let closing : Closing := ⟨next, hc⟩
        have hn' : Readable rest :=
          (hr'.of_append e.endsLine).tail (by simp [hc, TokenKind.endsLine])
        obtain ⟨next, rest, rfl⟩ := hn'.exists_eq_cons
        refine .inl ⟨.primary (.call f opening e closing), next, rest, ?_, ?_,
          precedence_lt_operand⟩
        · simp [Phrase.tokens, f, opening, closing]
        · simp only [Phrase.height]
          omega
      · refine .inr ⟨.here, .closeCall f opening e, next, rest, _, rfl, Nat.le_of_lt hd, ?_, hc,
          isOperator_eq_false hn, rfl⟩
        simp only [Gap.levels, Want.height]
        omega
    · exact .inr (hs.enter [t, b] (.call f opening) (fun _ => rfl)
        (fun _ => rfl) fun _ => rfl)
  · exact .inr ⟨.here, .bracket f, b, rest, _, rfl, Nat.le_of_lt hd, hd, hb, rfl⟩

/-- An opening parenthesis, before what may be enclosed by it. -/
theorem leads_parenthesis (ht : t.kind = .leftParen) (hd : d < maxNesting) (hr : Readable rest)
    (ih : Leads (d + 1) .sum rest) : Leads d .operand (t :: rest) := by
  let opening : Opening := ⟨t, ht⟩
  obtain ⟨e, next, rest, rfl, hh, hn⟩ | hs := ih
  · by_cases hc : next.kind = .rightParen
    · let closing : Closing := ⟨next, hc⟩
      have hn' : Readable rest :=
        (hr.of_append e.endsLine).tail (by simp [hc, TokenKind.endsLine])
      obtain ⟨next, rest, rfl⟩ := hn'.exists_eq_cons
      refine .inl ⟨.primary (.parenthesis opening e closing), next, rest, ?_, ?_,
        precedence_lt_operand⟩
      · simp [Phrase.tokens, opening, closing]
      · simp only [Phrase.height]
        omega
    · refine .inr ⟨.here, .close opening e, next, rest, _, rfl, Nat.le_of_lt hd, ?_, hc,
        isOperator_eq_false hn, rfl⟩
      simp only [Gap.levels, Want.height]
      omega
  · exact .inr (hs.enter [t] (.parenthesis opening) (fun _ => rfl)
      (fun _ => rfl) fun _ => rfl)

end

/-! ### The induction -/

/-- Shorter lists of tokens lead somewhere. -/
def LeadsBelow (n : Nat) : Prop :=
  ∀ toks, toks.length < n → Readable toks → ∀ d, d ≤ maxNesting → ∀ st, st ≠ .primary →
    Leads d st toks

theorem leads_operand {toks : List Token} (ih : LeadsBelow toks.length) (hr : Readable toks)
    (hd : d ≤ maxNesting) : Leads d .operand toks := by
  obtain ⟨t, rest, rfl⟩ := hr.exists_eq_cons
  have hw := hr.head
  have below : ∀ toks, toks.length ≤ rest.length → Readable toks → d < maxNesting →
      ∀ st, st ≠ .primary → Leads (d + 1) st toks :=
    fun toks hl hrt hdt st hst => ih toks (Nat.lt_succ_of_le hl) hrt (d + 1) hdt st hst
  by_cases hfull : d = maxNesting ∧ t.kind.opensLevel = true
  · exact .inr (strays_here hd (.inl ⟨hfull.2, hfull.1, rfl⟩))
  have hlt : t.kind.opensLevel = true → d < maxNesting := fun ho =>
    Nat.lt_of_le_of_ne hd fun e => hfull ⟨e, ho⟩
  -- the kind of the first token decides which operand it is
  cases hk : t.kind with
  | nondecimal | scientific | float | number =>
    exact leads_literal (by simp [hk, TokenKind.isLiteral]) hw hd
      (hr.tail (by simp [hk, TokenKind.endsLine]))
  | ident => exact leads_name hk hw hd (hr.tail (by simp [hk, TokenKind.endsLine]))
  | plus | minus =>
    have hr' := hr.tail (by simp [hk, TokenKind.endsLine])
    exact leads_sign (by rw [hk]; rfl) (below rest (Nat.le_refl _) hr'
      (hlt (by simp [hk, TokenKind.opensLevel])) .operand (by simp))
  | func =>
    have ho := hlt (by simp [hk, TokenKind.opensLevel])
    exact leads_call hk hw ho (hr.tail (by simp [hk, TokenKind.endsLine]))
      fun toks hl hrt => below toks (Nat.le_of_lt hl) hrt ho .sum (by simp)
  | leftParen =>
    have ho := hlt (by simp [hk, TokenKind.opensLevel])
    have hr' := hr.tail (by simp [hk, TokenKind.endsLine])
    exact leads_parenthesis hk ho hr' (below rest (Nat.le_refl _) hr' ho .sum (by simp))
  | comment | newLine | equals | asterisk | slash | rightParen | endOfInput =>
    exact .inr (strays_here hd (.inr ⟨by simp [hk, TokenKind.startsOperand, TokenKind.opensLevel,
      TokenKind.isLiteral], rfl⟩))

/-- A product goes on as long as an operator of products follows. -/
theorem leads_product_append {n : Nat} (ih : LeadsBelow n) (hd : d ≤ maxNesting)
    (lhs : Phrase .product) (next : Token) (rest : List Token) (hl : rest.length < n)
    (hh : d + lhs.height ≤ maxNesting) (hr : Readable (next :: rest)) :
    Leads d .product (lhs.tokens ++ next :: rest) := by
  -- on the tokens behind the chain `lhs`, which takes in one operator and operand after the other
  induction hm : rest.length using Nat.strongRecOn generalizing lhs next rest with
  | ind m ihm =>
    by_cases hop : ∃ op, BinOp.ofKind? next.kind = some op ∧ 2 ≤ op.precedence
    · obtain ⟨op, hop, hp⟩ := hop
      let o : Operator := ⟨next, TokenKind.isOperator_of_ofKind? hop⟩
      have ho : o.IsMultiplicative := by
        have ho : o.op = op := Operator.op_eq hop
        exact Operator.isMultiplicative_iff.mpr (ho ▸ Nat.le_antisymm op.precedence_le hp)
      have hr' : Readable rest := hr.tail (TokenKind.endsLine_of_inExpression o.inExpression)
      obtain ⟨u, next', rest', rfl, hu, -⟩ | hs := ih rest hl hr' d hd .operand (by simp)
      · have e : lhs.tokens ++ next :: (u.tokens ++ next' :: rest') =
            (Phrase.product lhs o ho u).tokens ++ next' :: rest' := by
          simp [Phrase.tokens, o]
        rw [e]
        simp only [List.length_append, List.length_cons] at hm hl
        exact ihm rest'.length (by omega) (.product lhs o ho u) next' rest' (by omega)
          (by simp only [Phrase.height]; omega) (hr'.of_append u.endsLine) rfl
      · obtain ⟨g, w, t, rest', diag, rfl, hn, hi, hb⟩ := hs
        exact .inr ⟨.product lhs o ho g, w, t, rest', diag, by simp [Gap.tokens, o],
          by simp only [Gap.height]; omega, hi, hb⟩
    · refine .inl ⟨lhs, next, rest, rfl, hh, fun op h => ?_⟩
      exact Nat.lt_of_not_le fun hp => hop ⟨op, h, hp⟩

theorem leads_product {toks : List Token} (ih : LeadsBelow toks.length) (hr : Readable toks)
    (hd : d ≤ maxNesting) : Leads d .product toks := by
  obtain ⟨u, next, rest, rfl, hu, -⟩ | ⟨g, w, t, rest, diag, h⟩ := leads_operand ih hr hd
  · refine leads_product_append ih hd (.operand u) next rest ?_ hu (hr.of_append u.endsLine)
    simp only [List.length_append, List.length_cons]
    omega
  · exact .inr ⟨.operand g, w, t, rest, diag, h⟩

/-- A sum goes on as long as an operator follows. -/
theorem leads_sum_append {n : Nat} (ih : LeadsBelow n) (hd : d ≤ maxNesting)
    (lhs : Phrase .sum) (next : Token) (rest : List Token) (hl : rest.length < n)
    (hh : d + lhs.height ≤ maxNesting) (hr : Readable (next :: rest))
    (hn : ∀ op, BinOp.ofKind? next.kind = some op → op.precedence < 2) :
    Leads d .sum (lhs.tokens ++ next :: rest) := by
  -- as for products; but the right operands are products, up to the next operator
  induction hm : rest.length using Nat.strongRecOn generalizing lhs next rest with
  | ind m ihm =>
    by_cases hop : ∃ op, BinOp.ofKind? next.kind = some op
    · obtain ⟨op, hop⟩ := hop
      let o : Operator := ⟨next, TokenKind.isOperator_of_ofKind? hop⟩
      have ho : o.IsAdditive := by
        have ho : o.op = op := Operator.op_eq hop
        have hp : op.precedence ≤ 1 := Nat.le_of_lt_succ (hn op hop)
        exact Operator.isAdditive_iff.mpr (ho ▸ Nat.le_antisymm hp op.precedence_pos)
      have hr' : Readable rest := hr.tail (TokenKind.endsLine_of_inExpression o.inExpression)
      obtain ⟨p, next', rest', rfl, hp, hn'⟩ | hs := ih rest hl hr' d hd .product (by simp)
      · have e : lhs.tokens ++ next :: (p.tokens ++ next' :: rest') =
            (Phrase.sum lhs o ho p).tokens ++ next' :: rest' := by
          simp [Phrase.tokens, o]
        rw [e]
        simp only [List.length_append, List.length_cons] at hm hl
        exact ihm rest'.length (by omega) (.sum lhs o ho p) next' rest' (by omega)
          (by simp only [Phrase.height]; omega) (hr'.of_append p.endsLine) hn' rfl
      · obtain ⟨g, w, t, rest', diag, rfl, hn, hi, hb⟩ := hs
        exact .inr ⟨.sum lhs o ho g, w, t, rest', diag, by simp [Gap.tokens, o],
          by simp only [Gap.height]; omega, hi, hb⟩
    · exact .inl ⟨lhs, next, rest, rfl, hh, fun op h => absurd ⟨op, h⟩ hop⟩

theorem leads_sum {toks : List Token} (ih : LeadsBelow toks.length) (hr : Readable toks)
    (hd : d ≤ maxNesting) : Leads d .sum toks := by
  obtain ⟨p, next, rest, rfl, hp, hn⟩ | ⟨g, w, t, rest, diag, h⟩ := leads_product ih hr hd
  · refine leads_sum_append ih hd (.term p) next rest ?_ hp (hr.of_append p.endsLine) hn
    simp only [List.length_append, List.length_cons]
    omega
  · exact .inr ⟨.term g, w, t, rest, diag, h⟩

theorem leadsBelow (n : Nat) : LeadsBelow n := by
  induction n with
  | zero => exact fun toks h => absurd h (Nat.not_lt_zero _)
  | succ n ih =>
    intro toks hl hr d hd st hst
    have ih' : LeadsBelow toks.length := fun toks' hl' => ih toks' (by omega)
    cases st with
    | sum => exact leads_sum ih' hr hd
    | product => exact leads_product ih' hr hd
    | operand => exact leads_operand ih' hr hd
    | primary => exact absurd rfl hst

/-- Every list of readable tokens starts with an expression or strays into a gap. -/
theorem leads {toks : List Token} (hr : Readable toks) : Leads 0 .sum toks :=
  leadsBelow (toks.length + 1) toks (Nat.lt_succ_self _) hr 0 (Nat.zero_le _) .sum (by simp)

end Grammar

end LineCalc
