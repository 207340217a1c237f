import LineCalc.Proofs.Grammar.Phrase

/-!
# Integral expressions

An expression is integral when it has neither calls nor divisions, and no float stands at its leaves.
`Phrase.exact` is its value over the unbounded integers, and `Phrase.parts` are its subexpressions in
post-order, each with its exact value. As long as these fit, the expression comes to them; the first
one that does not fit is the fault. What is put in the place of its value may be wrong for all that
follows, but of several faults the first is kept.
-/

namespace LineCalc

open Grammar Number

/-! ### Operations -/

namespace Number

/-- The unbounded integer that a number is. A float is none. -/
def exact : Number → Int
  | .int n => n.toInt
  | .float _ => 0

theorem exists_eq_int {n : Number} (h : n.isFloat = false) : ∃ m : Int64, n = .int m := by
  cases n with
  | int m => exact ⟨m, rfl⟩
  | float x => cases h

theorem fits_toInt (n : Int64) : Fits n.toInt := by
  rw [Fits, Int64.toInt_minValue, Int64.toInt_maxValue]
  exact ⟨n.le_toInt, Int.le_sub_one_of_lt n.toInt_lt⟩

end Number

namespace BinOp

/-- The operation on unbounded integers. A quotient is none. -/
def exact : BinOp → Int → Int → Int
  | .add, m, n => m + n
  | .sub, m, n => m - n
  | .mul, m, n => m * n
  | .div, _, _ => 0

/-- What is out of range when the operation on two integers has no value. -/
def ranged? : BinOp → Option Ranged
  | .add => some .addition
  | .sub => some .subtraction
  | .mul => some .multiplication
  | .div => none

theorem exists_apply_eq {op : BinOp} (h : op ≠ .div) : ∃ what, op.ranged? = some what ∧
    ∀ m n : Int64, op.apply (.int m) (.int n) = exactly what (op.exact m.toInt n.toInt) := by
  cases op with
  | add => exact ⟨_, rfl, fun _ _ => rfl⟩
  | sub => exact ⟨_, rfl, fun _ _ => rfl⟩
  | mul => exact ⟨_, rfl, fun _ _ => rfl⟩
  | div => exact absurd rfl h

end BinOp

namespace UnOp

/-- The operation on unbounded integers. -/
def exact : UnOp → Int → Int
  | .plus, n => n
  | .minus, n => -n

/-- What is out of range when the operation on an integer has no value. -/
def ranged? : UnOp → Option Ranged
  | .plus => none
  | .minus => some .negation

end UnOp

/-! ### Integral expressions -/

namespace Grammar

/-- A subexpression. -/
structure Part where
  /-- Its value over the unbounded integers. -/
  exact : Int
  /-- The operation that it is, if there is one that can be out of range, and its place. -/
  operation? : Option (Ranged × Span) := none

namespace Phrase

variable {st : Stratum}

/-- No part of the expression is a float, whatever is out of range: neither a literal nor the value
of a name is one, and there are neither calls nor divisions. -/
def Integral (b : Bindings) {st : Stratum} : Phrase st → Prop
  | literal l => l.value.isFloat = false
  | name m => ((b.get? m.name).getD (.int 0)).isFloat = false
  | call _ _ _ _ => False
  | parenthesis _ inner _ => inner.Integral b
  | primary p => p.Integral b
  | sign _ u => u.Integral b
  | operand u => u.Integral b
  | product lhs o _ rhs => o.op ≠ .div ∧ lhs.Integral b ∧ rhs.Integral b
  | term t => t.Integral b
  | sum lhs _ _ rhs => lhs.Integral b ∧ rhs.Integral b

/-- The value of an integral expression over the unbounded integers. -/
def exact (b : Bindings) {st : Stratum} : Phrase st → Int
  | literal l => l.value.exact
  | name m => ((b.get? m.name).getD (.int 0)).exact
  | call _ _ _ _ => 0
  | parenthesis _ inner _ => inner.exact b
  | primary p => p.exact b
  | sign o u => o.op.exact (u.exact b)
  | operand u => u.exact b
  | product lhs o _ rhs => o.op.exact (lhs.exact b) (rhs.exact b)
  | term t => t.exact b
  | sum lhs o _ rhs => o.op.exact (lhs.exact b) (rhs.exact b)

/-- The subexpressions of an integral expression, in post-order. -/
def parts (b : Bindings) {st : Stratum} : Phrase st → List Part
  | literal l => [⟨l.value.exact, none⟩]
  | name m => [⟨((b.get? m.name).getD (.int 0)).exact, none⟩]
  | call _ _ _ _ => []
  | parenthesis _ inner _ => inner.parts b ++ [⟨inner.exact b, none⟩]
  | primary p => p.parts b
  | sign o u => u.parts b ++ [⟨o.op.exact (u.exact b), o.op.ranged?.map (·, o.token.span)⟩]
  | operand u => u.parts b
  | product lhs o _ rhs => lhs.parts b ++ rhs.parts b ++
      [⟨o.op.exact (lhs.exact b) (rhs.exact b), o.op.ranged?.map (·, o.token.span)⟩]
  | term t => t.parts b
  | sum lhs o _ rhs => lhs.parts b ++ rhs.parts b ++
      [⟨o.op.exact (lhs.exact b) (rhs.exact b), o.op.ranged?.map (·, o.token.span)⟩]

end Phrase

/-- The part `p` is the first one of `parts` that does not fit. -/
def FirstUnfit (parts : List Part) (p : Part) : Prop :=
  ∃ before after, parts = before ++ p :: after ∧ (∀ q ∈ before, Fits q.exact) ∧ ¬Fits p.exact

theorem FirstUnfit.append {parts : List Part} {p : Part} (h : FirstUnfit parts p)
    (more : List Part) : FirstUnfit (parts ++ more) p := by
  obtain ⟨before, after, rfl, hb, hp⟩ := h
  exact ⟨before, after ++ more, by simp, hb, hp⟩

theorem FirstUnfit.behind {parts done : List Part} {p : Part} (h : FirstUnfit parts p)
    (hd : ∀ q ∈ done, Fits q.exact) : FirstUnfit (done ++ parts) p := by
  obtain ⟨before, after, rfl, hb, hp⟩ := h
  exact ⟨done ++ before, after, by simp, List.forall_mem_append.mpr ⟨hd, hb⟩, hp⟩

theorem FirstUnfit.not_forall {parts : List Part} {p : Part} (h : FirstUnfit parts p) :
    ¬∀ q ∈ parts, Fits q.exact := by
  obtain ⟨before, after, rfl, -, hp⟩ := h
  exact fun hall => hp (hall p (by simp))

/-! ### Evaluating an integral expression -/

namespace Phrase

variable {st st' : Stratum} {scope : Scope}

/-- Every part fits, there is no fault, and the value is the exact one. -/
def IsExact (scope : Scope) (e : Phrase st) : Prop :=
  (∀ p ∈ e.parts scope.bindings, Fits p.exact) ∧ e.faults scope = [] ∧
    ∃ n : Int64, e.value scope = .int n ∧ n.toInt = e.exact scope.bindings

/-- The first part that does not fit is an operation, and the first fault is that it is out of
range. -/
def Overflows (scope : Scope) (e : Phrase st) : Prop :=
  ∃ exact what place, FirstUnfit (e.parts scope.bindings) ⟨exact, some (what, place)⟩ ∧
    (e.faults scope).head? = some ⟨.arithmetic (.overflow what), place⟩

/-- An operation behind its operands, when the parts of these fit: it comes to its exact value, or is
the first part that does not fit. -/
theorem exact_or_overflows_of_exactly (place : Span) (what : Ranged) {e : Phrase st}
    {done : List Part} {r : Except ArithError Number} (hd : ∀ q ∈ done, Fits q.exact)
    (hp : e.parts scope.bindings = done ++ [⟨e.exact scope.bindings, some (what, place)⟩])
    (hf : e.faults scope = faultOf place r) (hv : e.value scope = scope.settled place r)
    (hr : r = exactly what (e.exact scope.bindings)) : e.IsExact scope ∨ e.Overflows scope := by
  by_cases hfit : Fits (e.exact scope.bindings)
  · left
    obtain ⟨n, hn, hexact⟩ : ∃ n : Int64,
        exactly what (e.exact scope.bindings) = .ok (.int n) ∧
          n.toInt = e.exact scope.bindings := exactly_of_fits hfit
    rw [hn] at hr
    refine ⟨?_, by rw [hf, hr]; rfl, n, by rw [hv, hr]; rfl, hexact⟩
    rw [hp]
    exact List.forall_mem_append.mpr ⟨hd, List.forall_mem_singleton.mpr hfit⟩
  · right
    rw [exactly_of_not_fits hfit] at hr
    refine ⟨e.exact scope.bindings, what, place, ?_, by rw [hf, hr]; rfl⟩
    rw [hp]
    exact ⟨done, [], rfl, hd, hfit⟩

/-- An operation on two integral operands. -/
theorem exact_or_overflows_of_operands {e : Phrase st} {lhs : Phrase st'} {st'' : Stratum}
    {rhs : Phrase st''} {o : Operator} (hdiv : o.op ≠ .div)
    (hl : lhs.IsExact scope ∨ lhs.Overflows scope) (hr : rhs.IsExact scope ∨ rhs.Overflows scope)
    (hp : e.parts scope.bindings = lhs.parts scope.bindings ++ rhs.parts scope.bindings ++
      [⟨e.exact scope.bindings, o.op.ranged?.map (·, o.token.span)⟩])
    (he : e.exact scope.bindings =
      o.op.exact (lhs.exact scope.bindings) (rhs.exact scope.bindings))
    (hf : e.faults scope = lhs.faults scope ++ rhs.faults scope ++
      faultOf o.token.span (o.result (lhs.value scope) (rhs.value scope)))
    (hv : e.value scope =
      scope.settled o.token.span (o.result (lhs.value scope) (rhs.value scope))) :
    e.IsExact scope ∨ e.Overflows scope := by
  -- the first fault is that of the left operand, else of the right one, else of the operation
  rcases hl with ⟨hlp, hlf, m, hlv, hm⟩ | ⟨exact, what, place, hfirst, hfault⟩
  · rcases hr with ⟨hrp, hrf, n, hrv, hn⟩ | ⟨exact, what, place, hfirst, hfault⟩
    · obtain ⟨what, hwhat, happly⟩ := BinOp.exists_apply_eq hdiv
      have hfits : ∀ q ∈ lhs.parts scope.bindings ++ rhs.parts scope.bindings, Fits q.exact :=
        List.forall_mem_append.mpr ⟨hlp, hrp⟩
      refine exact_or_overflows_of_exactly o.token.span what hfits ?_ ?_ hv ?_
      · rw [hp, hwhat]
        rfl
      · rw [hf, hlf, hrf]
        rfl
      · rw [hlv, hrv, ← o.apply_op, happly, hm, hn, he]
    · -- the right operand has the first fault
      refine .inr ⟨exact, what, place, ?_, ?_⟩
      · rw [hp]
        exact (hfirst.behind hlp).append _
      · rw [hf, hlf, List.nil_append, List.head?_append, hfault]
        rfl
  · refine .inr ⟨exact, what, place, ?_, ?_⟩
    · rw [hp, List.append_assoc]
      exact hfirst.append _
    · rw [hf, List.append_assoc, List.head?_append, hfault]
      rfl

theorem isExact_of_leaf {e : Phrase st} {v : Number} (hi : v.isFloat = false)
    (hp : e.parts scope.bindings = [⟨v.exact, none⟩]) (hf : e.faults scope = [])
    (hv : e.value scope = v) (he : e.exact scope.bindings = v.exact) : e.IsExact scope := by
  obtain ⟨n, rfl⟩ := Number.exists_eq_int hi
  refine ⟨?_, hf, n, hv, he.symm⟩
  rw [hp]
  exact List.forall_mem_singleton.mpr (Number.fits_toInt n)

/-- An expression that comes to what its only operand comes to. -/
theorem IsExact.of_operand {e : Phrase st} {operand : Phrase st'} (h : operand.IsExact scope)
    (operation? : Option (Ranged × Span))
    (hp : e.parts scope.bindings =
      operand.parts scope.bindings ++ [⟨operand.exact scope.bindings, operation?⟩])
    (hf : e.faults scope = operand.faults scope) (hv : e.value scope = operand.value scope)
    (he : e.exact scope.bindings = operand.exact scope.bindings) : e.IsExact scope := by
  obtain ⟨hparts, hfaults, n, hvalue, hn⟩ := h
  refine ⟨?_, hf.trans hfaults, n, hv.trans hvalue, hn.trans he.symm⟩
  rw [hp, ← hn]
  exact List.forall_mem_append.mpr ⟨hparts, List.forall_mem_singleton.mpr (Number.fits_toInt n)⟩

theorem exact_or_overflows_sign (o : Sign) {u : Phrase .operand}
    (h : u.IsExact scope ∨ u.Overflows scope) :
    (sign o u).IsExact scope ∨ (sign o u).Overflows scope := by
  rcases h with hexact | ⟨exact, what, place, hfirst, hfault⟩
  · -- a plus does nothing, and a minus is an operation that may overflow
    cases ho : o.op with
    | plus =>
      refine .inl (hexact.of_operand none ?_ ?_ ?_ ?_)
      · rw [parts, ho]
        rfl
      · rw [faults, ← o.apply_op, ho]
        exact List.append_nil _
      · rw [value, ← o.apply_op, ho]
        rfl
      · rw [Phrase.exact, ho]
        rfl
    | minus =>
      obtain ⟨hp, hf, n, hv, hn⟩ := hexact
      refine exact_or_overflows_of_exactly o.token.span .negation hp
        (r := Number.neg (.int n)) ?_ ?_ ?_ ?_
      · rw [parts, Phrase.exact, ho]
        rfl
      · rw [faults, hf, hv, ← o.apply_op, ho]
        rfl
      · rw [value, hv, ← o.apply_op, ho]
        rfl
      · rw [Phrase.exact, ho, ← hn]
        rfl
  · refine .inr ⟨exact, what, place, hfirst.append _, ?_⟩
    rw [faults, List.head?_append, hfault]
    rfl

/-- **An integral expression comes to its exact value, or its first fault is the first part that does
not fit.** -/
theorem exact_or_overflows (scope : Scope) (e : Phrase st) (h : e.Integral scope.bindings) :
    e.IsExact scope ∨ e.Overflows scope := by
  -- no call is integral; each of the others has the exact parts of its operands, and its own
  induction e with
  | literal l => exact .inl (isExact_of_leaf h rfl rfl rfl rfl)
  | name m => exact .inl (isExact_of_leaf h rfl rfl rfl rfl)
  | call f opening arg closing => exact h.elim
  | primary p ih => exact ih h
  | operand u ih => exact ih h
  | term t ih => exact ih h
  | parenthesis opening inner closing ih =>
    rcases ih h with hexact | ⟨exact, what, place, hfirst, hfault⟩
    · exact .inl (hexact.of_operand none rfl rfl rfl rfl)
    · exact .inr ⟨exact, what, place, hfirst.append _, hfault⟩
  | sign o u ih => exact exact_or_overflows_sign o (ih h)
  | product lhs o ho rhs ihl ihr =>
    obtain ⟨hdiv, hl, hr⟩ := h
    exact exact_or_overflows_of_operands hdiv (ihl hl) (ihr hr) rfl rfl rfl rfl
  | sum lhs o ho rhs ihl ihr =>
    obtain ⟨hl, hr⟩ := h
    have hdiv : o.op ≠ .div := by
      intro hdiv
      have hp := Operator.isAdditive_iff.mp ho
      rw [hdiv] at hp
      cases hp
    exact exact_or_overflows_of_operands hdiv (ihl hl) (ihr hr) rfl rfl rfl rfl

end Phrase

end Grammar

end LineCalc
