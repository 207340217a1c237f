import LineCalc.Proofs.Grammar.Mentions
import LineCalc.Proofs.Reading.Tokens

/-!
# The kind of a value

Whether a value is a float can be told from the tokens of its expression and the kinds of the names:
it is one just if there is a float among the literals and the names, or a division, or a call. The
numbers themselves do not matter, as long as every operation has a value.
-/

namespace LineCalc

/-! ### Operations -/

namespace Number

variable {a b v : Number} {what : Ranged}

theorem isFloat_of_exactly {n : Int} (h : exactly what n = .ok v) : v.isFloat = false := by
  unfold exactly at h
  split at h
  · cases h
    rfl
  · cases h

theorem isFloat_of_promoted {onInts : Int → Int → Int} {onFloats : Float → Float → Float}
    (h : promoted what onInts onFloats a b = .ok v) : v.isFloat = (a.isFloat || b.isFloat) := by
  cases a with
  | int m =>
    cases b with
    | int n => exact isFloat_of_exactly h
    | float y =>
      cases h
      rfl
  | float x =>
    cases h
    rfl

theorem isFloat_of_div (h : div a b = .ok v) : v.isFloat = true := by
  unfold div at h
  split at h
  · cases h
  · cases h
    rfl

theorem isFloat_of_neg (h : neg a = .ok v) : v.isFloat = a.isFloat := by
  cases a with
  | int n => exact isFloat_of_exactly h
  | float x =>
    cases h
    rfl

end Number

theorem Func.isFloat_of_apply {f : Func} {a v : Number} (h : f.apply a = .ok v) :
    v.isFloat = true := by
  unfold Func.apply at h
  cases f with
  | sin | cos | log =>
    simp only at h
    split at h
    · cases h
    · cases h
      rfl
  | exp =>
    simp only at h
    split at h
    · cases h
    · cases h
      rfl

/-! ### Tokens -/

/-- Is a literal of this kind written with a point or an exponent? -/
def TokenKind.isFloatLiteral : TokenKind → Bool
  | .float | .scientific => true
  | _ => false

namespace Token

/-- The number that the token decodes to, if it is one, is of the kind that the token has. -/
def Typed (t : Token) : Prop :=
  ∀ n, t.payload = .number n → n.isFloat = t.kind.isFloatLiteral

/-- Is an expression with this token a float? So it is where the token is a literal written as one, a
division, the keyword of a call, or a name that stands for a float. -/
def makesFloat (kinds : String → Bool) (t : Token) : Bool :=
  match t.kind with
  | .float | .scientific | .slash | .func => true
  | .ident => t.name?.any kinds
  | _ => false

end Token

theorem isFloat_of_integerValue? {base : Nat} {digits : List Char} {n : Number}
    (h : integerValue? base digits = some n) : n.isFloat = false := by
  unfold integerValue? at h
  simp only at h
  split at h
  · cases h
    rfl
  · cases h

theorem isFloat_of_nondecimalValue? {lexeme : List Char} {n : Number}
    (h : nondecimalValue? lexeme = some n) : n.isFloat = false := by
  unfold nondecimalValue? at h
  split at h
  · exact isFloat_of_integerValue? h
  · cases h

namespace Chunk

/-- A literal decodes to a number of its kind. -/
theorem isFloat_of_meaning? {lexeme : List Char} {rule : Rule} {kind : TokenKind} {n : Number}
    (h : meaning? lexeme rule = some (kind, some (.number n))) : n.isFloat = kind.isFloatLiteral := by
  cases rule with
  | nondecimal =>
    obtain ⟨rfl, hpayload⟩ := Prod.mk.inj (Option.some.inj h)
    obtain ⟨m, hm, hmn⟩ := Option.map_eq_some_iff.mp hpayload
    exact Payload.number.inj hmn ▸ isFloat_of_nondecimalValue? hm
  | number =>
    obtain ⟨rfl, hpayload⟩ := Prod.mk.inj (Option.some.inj h)
    obtain ⟨m, hm, hmn⟩ := Option.map_eq_some_iff.mp hpayload
    exact Payload.number.inj hmn ▸ isFloat_of_integerValue? hm
  | scientific | float =>
    cases h
    rfl
  | func =>
    obtain ⟨rfl, hpayload⟩ := Prod.mk.inj (Option.some.inj h)
    cases hf : Func.ofKeyword? (String.ofList lexeme) <;> rw [hf] at hpayload <;> cases hpayload
  | _ => cases h

/-- A token of a text is typed. -/
theorem typed_of_item? {chunk : Chunk} {t : Token} (h : chunk.item? = some (.ok t)) : t.Typed := by
  unfold item? at h
  split at h
  · obtain ⟨⟨kind, payload⟩, hm, h⟩ := Option.map_eq_some_iff.mp h
    intro n hn
    cases payload with
    | none => cases h
    | some payload =>
      cases h
      obtain rfl : payload = .number n := hn
      exact isFloat_of_meaning? hm
  · cases h

end Chunk

theorem Reading.typed_ofText (names : NameGrammar) (source : String) :
    ∀ t ∈ Reading.tokens (Reading.ofText names source), t.Typed := by
  obtain ⟨rs, taken, place, h, hr⟩ := exists_of_readFrom {} [] (Chunk.cut names source.toList)
  intro t ht
  rw [ofText, ofChunks, h, tokens_append, tokens_ok, tokens_nil] at ht
  rcases List.mem_append.mp ht with ht | ht
  · obtain ⟨r, hmem, hi⟩ := mem_tokens.mp ht
    obtain ⟨chunk, -, hitem⟩ := hr r hmem
    exact Chunk.typed_of_item? (hi ▸ hitem)
  · obtain rfl := List.mem_singleton.mp ht
    intro n hn
    cases hn

/-- The kinds of the names: does the name stand for a float? One without a value does not. -/
def Bindings.kinds (b : Bindings) (name : String) : Bool := (b.get? name).any Number.isFloat

theorem Bindings.kinds_set (b : Bindings) (name : String) (v : Number) : (b.set name v).kinds =
    fun name' => if name' = name then v.isFloat else b.kinds name' := by
  funext name'
  rw [kinds, get?_set]
  split
  · rfl
  · rfl

/-! ### Expressions -/

namespace Grammar

variable {st : Stratum} {scope : Scope} {kinds : String → Bool}

/-- An operation without a fault has a value, and nothing stands in for it. -/
theorem exists_ok_of_faultOf (scope : Scope) {place : Span} {r : Except ArithError Number}
    (h : faultOf place r = []) : ∃ v, r = .ok v ∧ scope.settled place r = v := by
  cases r with
  | ok v => exact ⟨v, rfl, rfl⟩
  | error e => cases h

/-! Which tokens of an expression make a float of it. -/

theorem Mention.makesFloat (m : Mention) : m.token.makesFloat kinds = kinds m.name := by
  simp [Token.makesFloat, m.isIdent, m.name?_token]

theorem Literal.makesFloat (l : Literal) (ht : l.token.Typed) :
    l.token.makesFloat kinds = l.value.isFloat := by
  have h := l.isLiteral
  rw [ht _ l.payload, Token.makesFloat]
  cases hk : l.token.kind <;> simp_all [TokenKind.isLiteral, TokenKind.isFloatLiteral]

theorem Keyword.makesFloat (f : Keyword) : f.token.makesFloat kinds = true := by
  simp [Token.makesFloat, f.isFunc]

theorem Opening.makesFloat (opening : Opening) : opening.1.makesFloat kinds = false := by
  simp [Token.makesFloat, opening.2]

theorem Closing.makesFloat (closing : Closing) : closing.1.makesFloat kinds = false := by
  simp [Token.makesFloat, closing.2]

theorem Sign.makesFloat (o : Sign) : o.token.makesFloat kinds = false := by
  have h := o.isSign
  rw [Token.makesFloat]
  cases hk : o.token.kind <;> simp_all [TokenKind.isSign]

theorem Sign.isFloat_of_result {o : Sign} {a v : Number} (h : o.result a = .ok v) :
    v.isFloat = a.isFloat := by
  unfold Sign.result at h
  split at h
  · exact Number.isFloat_of_neg h
  · cases h
    rfl

theorem Operator.isFloat_of_result {o : Operator} {a b v : Number} (h : o.result a b = .ok v) :
    v.isFloat = (a.isFloat || (o.token.makesFloat kinds || b.isFloat)) := by
  have ho := o.isOperator
  unfold Operator.result at h
  rw [Token.makesFloat]
  cases hk : o.token.kind with
  | plus | minus | asterisk =>
    rw [hk] at h
    exact Number.isFloat_of_promoted h
  | slash =>
    rw [hk] at h
    simp [Number.isFloat_of_div h]
  | _ => simp [hk, TokenKind.isOperator] at ho

namespace Phrase

theorem isFloat_settled (o : Operator) {l r : Number} {toks toks' : List Token}
    (hf : faultOf o.token.span (o.result l r) = []) (hl : l.isFloat = toks.any (·.makesFloat kinds))
    (hr : r.isFloat = toks'.any (·.makesFloat kinds)) :
    (scope.settled o.token.span (o.result l r)).isFloat =
      (toks ++ o.token :: toks').any (·.makesFloat kinds) := by
  obtain ⟨v, hv, hsettled⟩ := exists_ok_of_faultOf scope hf
  rw [hsettled, Operator.isFloat_of_result hv, List.any_append, List.any_cons, hl, hr]

/-- **The kind of a value is determined by the text and the kinds of the names.** -/
theorem isFloat_value (scope : Scope) (e : Phrase st) (ht : ∀ t ∈ e.tokens, t.Typed)
    (hf : e.faults scope = []) :
    (e.value scope).isFloat = e.tokens.any (·.makesFloat scope.bindings.kinds) := by
  -- on the phrase: brackets and operators make no float, so the operands' tokens decide
  induction e with
  | literal l =>
    rw [tokens, List.any_cons, l.makesFloat (ht _ (List.mem_singleton_self _)), List.any_nil,
      Bool.or_false]
    rfl
  | name m =>
    rw [tokens, List.any_cons, m.makesFloat, List.any_nil, Bool.or_false, value, Bindings.kinds]
    cases scope.bindings.get? m.name <;> rfl
  | call f opening arg closing ih =>
    obtain ⟨-, hf⟩ := List.append_eq_nil_iff.mp hf
    obtain ⟨v, hv, hsettled⟩ := exists_ok_of_faultOf scope hf
    rw [value, hsettled, Func.isFloat_of_apply hv, tokens, List.any_cons, f.makesFloat,
      Bool.true_or]
  | parenthesis opening inner closing ih =>
    have hinner : ∀ t ∈ inner.tokens, t.Typed := fun t h =>
      ht t (List.mem_cons_of_mem _ (List.mem_append_left _ h))
    rw [value, ih hinner hf, tokens, List.any_cons, List.any_append, List.any_cons,
      opening.makesFloat, closing.makesFloat, List.any_nil, Bool.false_or, Bool.or_false,
      Bool.or_false]
  | primary _ ih | operand _ ih | term _ ih => exact ih ht hf
  | sign o u ih =>
    obtain ⟨hu, hf⟩ := List.append_eq_nil_iff.mp hf
    obtain ⟨v, hv, hsettled⟩ := exists_ok_of_faultOf scope hf
    rw [value, hsettled, Sign.isFloat_of_result hv, ih (fun t h => ht t (List.mem_cons_of_mem _ h)) hu,
      tokens, List.any_cons, o.makesFloat, Bool.false_or]
  | product lhs o ho rhs ihl ihr | sum lhs o ho rhs ihl ihr =>
    obtain ⟨hoperands, hf⟩ := List.append_eq_nil_iff.mp hf
    obtain ⟨hl, hr⟩ := List.append_eq_nil_iff.mp hoperands
    exact isFloat_settled o hf
      (ihl (fun t h => ht t (List.mem_append_left _ h)) hl)
      (ihr (fun t h => ht t (List.mem_append_right _ (List.mem_cons_of_mem _ h))) hr)

end Phrase

end Grammar

end LineCalc
