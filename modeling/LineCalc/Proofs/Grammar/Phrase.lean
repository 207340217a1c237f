import LineCalc.Proofs.Progress

/-!
# The grammar of expressions

The grammar of expressions has a stratum for each precedence:

* a sum is a product, or a sum and a product with `+` or `-` between them;
* a product is an operand, or a product and an operand with `*` or `/` between them;
* an operand is a primary, or a sign and an operand;
* a primary is a literal, a name, a call, or a sum in parentheses.

A `Phrase` is a derivation tree of this grammar, with the tokens at its leaves. It is evaluated in
post-order: `Phrase.value` is what comes out, `Phrase.unbound` are the names without a value and
`Phrase.faults` the operations without one, each in the order in which they are met. `Phrase.moves`
is all that is done meanwhile.
-/

namespace LineCalc

namespace Scope

/-- The result of an operation at a place, or what stands in for it. -/
def settled (scope : Scope) (place : Span) : Except ArithError Number → Number
  | .ok value => value
  | .error _ => scope.standIn place

/-- The scope of a program, where an operation without a value counts as zero. -/
def ofBindings (bindings : Bindings) : Scope := ⟨bindings, fun _ => .int 0⟩

end Scope

/-- The diagnostic of an operation at a place, if it has no value. -/
def faultOf (place : Span) : Except ArithError Number → List Diagnostic
  | .ok _ => []
  | .error e => [⟨.arithmetic e, place⟩]

namespace BinOp

theorem precedence_pos (op : BinOp) : 1 ≤ op.precedence := by cases op <;> decide

theorem precedence_le (op : BinOp) : op.precedence ≤ 2 := by cases op <;> decide

end BinOp

namespace TokenKind

/-- Does a line end with this kind of token? -/
def endsLine : TokenKind → Bool
  | .newLine | .endOfInput => true
  | _ => false

/-- Is there a place in expressions for this kind of token? -/
def inExpression : TokenKind → Bool
  | .comment | .newLine | .equals | .endOfInput => false
  | _ => true

theorem endsLine_of_inExpression {kind : TokenKind} (h : kind.inExpression = true) :
    kind.endsLine = false := by
  cases kind <;> first | rfl | cases h

theorem ne_endOfInput_of_inExpression {kind : TokenKind} (h : kind.inExpression = true) :
    kind ≠ .endOfInput := by
  rintro rfl
  cases h

/-- Is this `+`, `-`, `*` or `/`, that is, an operator between two operands? -/
def isOperator : TokenKind → Bool
  | .plus | .minus | .asterisk | .slash => true
  | _ => false

/-- Is this `+` or `-`, that is, an operator that may stand before an operand? -/
def isSign : TokenKind → Bool
  | .plus | .minus => true
  | _ => false

end TokenKind

theorem BinOp.ofKind?_eq_none_iff {kind : TokenKind} :
    BinOp.ofKind? kind = none ↔ kind.isOperator = false := by
  cases kind <;> simp [ofKind?, TokenKind.isOperator]

theorem UnOp.ofKind?_eq_none_iff {kind : TokenKind} :
    UnOp.ofKind? kind = none ↔ kind.isSign = false := by
  cases kind <;> simp [ofKind?, TokenKind.isSign]

theorem TokenKind.isOperator_of_ofKind? {kind : TokenKind} {op : BinOp}
    (h : BinOp.ofKind? kind = some op) : kind.isOperator = true := by
  cases kind <;> first | rfl | cases h

namespace Grammar

/-! ### Leaves -/

/-- A literal. -/
structure Literal where
  token : Token
  value : Number
  isLiteral : token.kind.isLiteral = true
  payload : token.payload = .number value

/-- A place where a name is used. -/
structure Mention where
  token : Token
  name : String
  isIdent : token.kind = .ident
  payload : token.payload = .ident name

/-- The keyword of a function. -/
structure Keyword where
  token : Token
  func : Func
  isFunc : token.kind = .func
  payload : token.payload = .func func

/-- An operator before an operand. -/
structure Sign where
  token : Token
  isSign : token.kind.isSign = true

/-- An operator between two operands. -/
structure Operator where
  token : Token
  isOperator : token.kind.isOperator = true

/-- An opening parenthesis. -/
abbrev Opening := { t : Token // t.kind = .leftParen }

/-- A closing parenthesis. -/
abbrev Closing := { t : Token // t.kind = .rightParen }

theorem Literal.inExpression (l : Literal) : l.token.kind.inExpression = true := by
  have h := l.isLiteral
  cases hk : l.token.kind <;> simp_all [TokenKind.isLiteral, TokenKind.inExpression]

theorem Sign.inExpression (o : Sign) : o.token.kind.inExpression = true := by
  have h := o.isSign
  cases hk : o.token.kind <;> simp_all [TokenKind.isSign, TokenKind.inExpression]

theorem Operator.inExpression (o : Operator) : o.token.kind.inExpression = true := by
  have h := o.isOperator
  cases hk : o.token.kind <;> simp_all [TokenKind.isOperator, TokenKind.inExpression]

/-- The negative of a value before which a `-` stands, and the value itself behind a `+`. -/
def Sign.result (o : Sign) (value : Number) : Except ArithError Number :=
  match o.token.kind with
  | .minus => value.neg
  | _ => .ok value

/-- The sum, difference, product or quotient of two values, as the operator between them says. -/
def Operator.result (o : Operator) (lhs rhs : Number) : Except ArithError Number :=
  match o.token.kind with
  | .plus => lhs.add rhs
  | .minus => lhs.sub rhs
  | .asterisk => lhs.mul rhs
  | _ => lhs.div rhs

/-- Is this `+` or `-`? -/
def Operator.IsAdditive (o : Operator) : Prop := o.token.kind = .plus ∨ o.token.kind = .minus

/-- Is this `*` or `/`? -/
def Operator.IsMultiplicative (o : Operator) : Prop :=
  o.token.kind = .asterisk ∨ o.token.kind = .slash

/-! The operators that tokens spell, and that are evaluated, are these. -/

/-- The operator before an operand that a token spells. -/
def Sign.op (o : Sign) : UnOp :=
  match o.token.kind with
  | .minus => .minus
  | _ => .plus

/-- The operator between two operands that a token spells. -/
def Operator.op (o : Operator) : BinOp :=
  match o.token.kind with
  | .plus => .add
  | .minus => .sub
  | .asterisk => .mul
  | _ => .div

theorem Sign.spells (o : Sign) : UnOp.ofKind? o.token.kind = some o.op := by
  have h := o.isSign
  unfold Sign.op
  cases hk : o.token.kind <;> simp_all [TokenKind.isSign, UnOp.ofKind?]

theorem Operator.spells (o : Operator) : BinOp.ofKind? o.token.kind = some o.op := by
  have h := o.isOperator
  unfold Operator.op
  cases hk : o.token.kind <;> simp_all [TokenKind.isOperator, BinOp.ofKind?]

theorem Sign.apply_op (o : Sign) (value : Number) : o.op.apply value = o.result value := by
  unfold Sign.op Sign.result
  split <;> rfl

theorem Operator.apply_op (o : Operator) (lhs rhs : Number) :
    o.op.apply lhs rhs = o.result lhs rhs := by
  unfold Operator.op Operator.result
  split <;> rfl

theorem Operator.op_eq {o : Operator} {op : BinOp} (h : BinOp.ofKind? o.token.kind = some op) :
    o.op = op :=
  Option.some.inj (o.spells.symm.trans h)

theorem Operator.isAdditive_iff {o : Operator} : o.IsAdditive ↔ o.op.precedence = 1 := by
  have h := o.isOperator
  unfold Operator.IsAdditive Operator.op
  cases hk : o.token.kind <;> simp_all [TokenKind.isOperator, BinOp.precedence]

theorem Operator.isMultiplicative_iff {o : Operator} :
    o.IsMultiplicative ↔ o.op.precedence = 2 := by
  have h := o.isOperator
  unfold Operator.IsMultiplicative Operator.op
  cases hk : o.token.kind <;> simp_all [TokenKind.isOperator, BinOp.precedence]

/-- The diagnostic of a name, if it has no value. -/
def Mention.unbound (m : Mention) (scope : Scope) : List Diagnostic :=
  match scope.bindings.get? m.name with
  | some _ => []
  | none => [⟨.undefined m.name, m.token.span⟩]

/-- The place of a call, from its keyword to its closing parenthesis. -/
def Keyword.place (f : Keyword) (closing : Closing) : Span := f.token.span.merge closing.1.span

/-! ### Phrases -/

/-- The strata of expressions. -/
inductive Stratum where
  | sum
  | product
  | operand
  | primary
deriving DecidableEq, Repr

/-- The precedence of the operators in a stratum; that of operands is above all operators between
operands. -/
def Stratum.precedence : Stratum → Nat
  | sum => 1
  | product => 2
  | operand => 3
  | primary => 3

/-- An expression of a stratum. -/
inductive Phrase : Stratum → Type where
  | literal (l : Literal) : Phrase .primary
  | name (m : Mention) : Phrase .primary
  | call (f : Keyword) (opening : Opening) (arg : Phrase .sum) (closing : Closing) : Phrase .primary
  | parenthesis (opening : Opening) (inner : Phrase .sum) (closing : Closing) : Phrase .primary
  | primary (p : Phrase .primary) : Phrase .operand
  | sign (o : Sign) (u : Phrase .operand) : Phrase .operand
  | operand (u : Phrase .operand) : Phrase .product
  | product (lhs : Phrase .product) (o : Operator) (ho : o.IsMultiplicative) (rhs : Phrase .operand) :
      Phrase .product
  | term (t : Phrase .product) : Phrase .sum
  | sum (lhs : Phrase .sum) (o : Operator) (ho : o.IsAdditive) (rhs : Phrase .product) : Phrase .sum

namespace Phrase

variable {st : Stratum}

/-- The tokens of an expression. -/
def tokens {st : Stratum} : Phrase st → List Token
  | literal l => [l.token]
  | name m => [m.token]
  | call f opening arg closing => f.token :: opening.1 :: (arg.tokens ++ [closing.1])
  | parenthesis opening inner closing => opening.1 :: (inner.tokens ++ [closing.1])
  | primary p => p.tokens
  | sign o u => o.token :: u.tokens
  | operand u => u.tokens
  | product lhs o _ rhs => lhs.tokens ++ o.token :: rhs.tokens
  | term t => t.tokens
  | sum lhs o _ rhs => lhs.tokens ++ o.token :: rhs.tokens

/-- How many signs, calls and parentheses are open at once. -/
def height {st : Stratum} : Phrase st → Nat
  | literal _ => 0
  | name _ => 0
  | call _ _ arg _ => arg.height + 1
  | parenthesis _ inner _ => inner.height + 1
  | primary p => p.height
  | sign _ u => u.height + 1
  | operand u => u.height
  | product lhs _ _ rhs => max lhs.height rhs.height
  | term t => t.height
  | sum lhs _ _ rhs => max lhs.height rhs.height

/-- The value of an expression. A name without a value counts as zero, and an operation without one
as what stands in for it. -/
def value (scope : Scope) {st : Stratum} : Phrase st → Number
  | literal l => l.value
  | name m => (scope.bindings.get? m.name).getD (.int 0)
  | call f _ arg closing => scope.settled (f.place closing) (f.func.apply (arg.value scope))
  | parenthesis _ inner _ => inner.value scope
  | primary p => p.value scope
  | sign o u => scope.settled o.token.span (o.result (u.value scope))
  | operand u => u.value scope
  | product lhs o _ rhs =>
    scope.settled o.token.span (o.result (lhs.value scope) (rhs.value scope))
  | term t => t.value scope
  | sum lhs o _ rhs => scope.settled o.token.span (o.result (lhs.value scope) (rhs.value scope))

/-- The diagnostics of names without a value, one for each occurrence. -/
def unbound (scope : Scope) {st : Stratum} : Phrase st → List Diagnostic
  | literal _ => []
  | name m => m.unbound scope
  | call _ _ arg _ => arg.unbound scope
  | parenthesis _ inner _ => inner.unbound scope
  | primary p => p.unbound scope
  | sign _ u => u.unbound scope
  | operand u => u.unbound scope
  | product lhs _ _ rhs => lhs.unbound scope ++ rhs.unbound scope
  | term t => t.unbound scope
  | sum lhs _ _ rhs => lhs.unbound scope ++ rhs.unbound scope

/-- The diagnostics of operations without a value, in post-order. -/
def faults (scope : Scope) {st : Stratum} : Phrase st → List Diagnostic
  | literal _ => []
  | name _ => []
  | call f _ arg closing =>
    arg.faults scope ++ faultOf (f.place closing) (f.func.apply (arg.value scope))
  | parenthesis _ inner _ => inner.faults scope
  | primary p => p.faults scope
  | sign o u => u.faults scope ++ faultOf o.token.span (o.result (u.value scope))
  | operand u => u.faults scope
  | product lhs o _ rhs => lhs.faults scope ++ rhs.faults scope ++
      faultOf o.token.span (o.result (lhs.value scope) (rhs.value scope))
  | term t => t.faults scope
  | sum lhs o _ rhs => lhs.faults scope ++ rhs.faults scope ++
      faultOf o.token.span (o.result (lhs.value scope) (rhs.value scope))

theorem exists_of_mem_faultOf {place : Span} {r : Except ArithError Number} {d : Diagnostic}
    (hd : d ∈ faultOf place r) : ∃ x, d.problem = .arithmetic x := by
  cases r with
  | ok value => cases hd
  | error x =>
    obtain rfl := List.mem_singleton.mp hd
    exact ⟨x, rfl⟩

/-- A fault tells why an operation has no value. -/
theorem exists_of_mem_faults (scope : Scope) (e : Phrase st) {d : Diagnostic}
    (hd : d ∈ e.faults scope) : ∃ x, d.problem = .arithmetic x := by
  induction e with
  | literal | name => cases hd
  | parenthesis _ _ _ ih | primary _ ih | operand _ ih | term _ ih => exact ih hd
  | call _ _ _ _ ih | sign _ _ ih =>
    obtain hd | hd := List.mem_append.mp hd
    · exact ih hd
    · exact exists_of_mem_faultOf hd
  | product _ _ _ _ ihl ihr | sum _ _ _ _ ihl ihr =>
    obtain hd | hd := List.mem_append.mp hd
    · obtain hd | hd := List.mem_append.mp hd
      · exact ihl hd
      · exact ihr hd
    · exact exists_of_mem_faultOf hd

/-- The moves of evaluating an expression. Behind an inner expression the next token is looked at,
to see whether an operator follows. -/
def moves (scope : Scope) {st : Stratum} : Phrase st → List Move
  | literal l => [.look 0, .take l.token]
  | name m => .look 0 :: .take m.token :: (m.unbound scope).map .report
  | call f opening arg closing =>
    .look 0 :: .enter :: .take f.token :: .look 0 :: .take opening.1 :: (arg.moves scope ++
      .look 0 :: .look 0 :: .take closing.1 :: .leave :: .note (.call f.func (arg.value scope)) ::
        (faultOf (f.place closing) (f.func.apply (arg.value scope))).map .blame)
  | parenthesis opening inner closing =>
    .look 0 :: .enter :: .take opening.1 :: (inner.moves scope ++
      [.look 0, .look 0, .take closing.1, .leave])
  | primary p => .look 0 :: p.moves scope
  | sign o u =>
    .look 0 :: .enter :: .take o.token :: (u.moves scope ++
      .look 0 :: .leave :: .note (.sign o.op (u.value scope)) ::
        (faultOf o.token.span (o.result (u.value scope))).map .blame)
  | operand u => u.moves scope
  | product lhs o _ rhs =>
    lhs.moves scope ++ .look 0 :: .take o.token :: (rhs.moves scope ++
      .look 0 :: .note (.operation (lhs.value scope) o.op (rhs.value scope)) ::
        (faultOf o.token.span (o.result (lhs.value scope) (rhs.value scope))).map .blame)
  | term t => t.moves scope
  | sum lhs o _ rhs =>
    lhs.moves scope ++ .look 0 :: .take o.token :: (rhs.moves scope ++
      .look 0 :: .note (.operation (lhs.value scope) o.op (rhs.value scope)) ::
        (faultOf o.token.span (o.result (lhs.value scope) (rhs.value scope))).map .blame)

@[simp] theorem taken_moves (scope : Scope) (e : Phrase st) :
    Move.taken (e.moves scope) = e.tokens := by
  induction e <;> simp [moves, tokens, *]

@[simp] theorem outputs_moves (scope : Scope) (e : Phrase st) :
    Move.outputs (e.moves scope) = (e.unbound scope).map .diagnostic := by
  induction e <;> simp [moves, unbound, *]

theorem length_unbound_le (scope : Scope) (e : Phrase st) :
    (e.unbound scope).length ≤ e.tokens.length := by
  induction e with
  | literal => exact Nat.zero_le _
  | name m =>
    show (m.unbound scope).length ≤ 1
    unfold Mention.unbound
    split <;> simp
  | primary _ ih | operand _ ih | term _ ih => exact ih
  | call | parenthesis | sign | product | sum =>
    simp only [unbound, tokens, List.length_append, List.length_cons, List.length_nil]
    omega

@[simp] theorem foldl_charge_moves (scope : Scope) (e : Phrase st) (fault : Option Diagnostic) :
    (e.moves scope).foldl Move.charge fault = fault.or (e.faults scope).head? := by
  induction e generalizing fault <;> simp [moves, faults, Option.or_assoc, *]

theorem tokens_ne_nil (e : Phrase st) : e.tokens ≠ [] := by
  induction e with
  | literal | name | call | parenthesis | sign => simp [tokens]
  | primary _ ih | operand _ ih | term _ ih => exact ih
  | product | sum => simp [tokens]

theorem inExpression (e : Phrase st) : ∀ t ∈ e.tokens, t.kind.inExpression = true := by
  -- on the phrase: each token is one of its own signs, or stands in a part
  induction e with
  | literal l => simpa [tokens] using l.inExpression
  | name m => simp [tokens, m.isIdent, TokenKind.inExpression]
  | call f opening arg closing ih =>
    have h₁ := opening.2
    have h₂ := closing.2
    simp only [tokens, List.mem_cons, List.mem_append, List.not_mem_nil, or_false]
    rintro t (rfl | rfl | ht | rfl)
    · simp [f.isFunc, TokenKind.inExpression]
    · simp [h₁, TokenKind.inExpression]
    · exact ih t ht
    · simp [h₂, TokenKind.inExpression]
  | parenthesis opening inner closing ih =>
    have h₁ := opening.2
    have h₂ := closing.2
    simp only [tokens, List.mem_cons, List.mem_append, List.not_mem_nil, or_false]
    rintro t (rfl | ht | rfl)
    · simp [h₁, TokenKind.inExpression]
    · exact ih t ht
    · simp [h₂, TokenKind.inExpression]
  | primary _ ih | operand _ ih | term _ ih => exact ih
  | sign o u ih =>
    simp only [tokens, List.mem_cons]
    rintro t (rfl | ht)
    · exact o.inExpression
    · exact ih t ht
  | product lhs o ho rhs ihl ihr | sum lhs o ho rhs ihl ihr =>
    simp only [tokens, List.mem_cons, List.mem_append]
    rintro t (ht | rfl | ht)
    · exact ihl t ht
    · exact o.inExpression
    · exact ihr t ht

theorem endsLine (e : Phrase st) : ∀ t ∈ e.tokens, t.kind.endsLine = false :=
  fun t ht => TokenKind.endsLine_of_inExpression (e.inExpression t ht)

end Phrase

end Grammar

end LineCalc
