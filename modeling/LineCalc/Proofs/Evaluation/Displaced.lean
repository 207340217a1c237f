import LineCalc.Proofs.Evaluation.Likeness
import LineCalc.Proofs.Reading.Displaced

/-!
# Evaluating further down

A script that stands further down in a text, and behind some counts, is like the one at the start, but
for its places. So it does the same and puts out the same, with the places further down.
-/

namespace LineCalc

theorem ReadTally.add_assoc (a b c : ReadTally) : a + b + c = a + (b + c) := by
  show ReadTally.mk _ _ _ _ = ReadTally.mk _ _ _ _
  congr 1 <;> exact Nat.add_assoc ..

theorem EvalTally.add_assoc (a b c : EvalTally) : a + b + c = a + (b + c) := by
  show EvalTally.mk _ _ _ = EvalTally.mk _ _ _
  congr 1 <;> exact Nat.add_assoc ..

/-- How far down a script stands, and what was counted in front of it. -/
structure Displacement where
  lines : Nat
  bytes : Nat
  read : ReadTally
  eval : EvalTally

/-- `s'` is `s` further down. The logs are left out. -/
structure Displaced (d : Displacement) (s s' : Script) : Prop where
  unread : s'.unread = s.unread.map (Reading.down d.lines d.bytes)
  size : s.size ≤ s'.size
  lookahead : s'.lookahead = s.lookahead.map (Token.down d.lines)
  queue : s'.queue = s.queue.map (Output.down d.lines)
  fault : s'.fault = s.fault.map (Diagnostic.down d.lines)
  failure : s'.failure = s.failure.map (Diagnostic.down d.lines)
  depth : s'.depth = s.depth
  halted : s'.halted = s.halted
  finished : s'.finished = s.finished
  readTally : s'.readTally = d.read + s.readTally
  evalTally : s'.evalTally = d.eval + s.evalTally

variable {d : Displacement} {s s' t : Script}

/-! ### The likeness of what is further down -/

theorem Found.ofToken_down (k : Nat) (tok : Token) : ofToken (tok.down k) = ofToken tok := by
  unfold ofToken
  rw [Token.kind_down]
  rfl

/-- What is further down is like what is at the start. -/
def Displacement.likeness (d : Displacement) : Likeness where
  place p p' := p' = p.down d.lines
  token tok tok' := tok' = tok.down d.lines
  reading r r' := r' = r.down d.lines d.bytes
  readTally a a' := a' = d.read + a
  evalTally a a' := a' = d.eval + a
  stores _ _ := True
  merge hp hq := by rw [hp, hq, Span.merge_down]
  kind ht := by rw [ht, Token.kind_down]
  payload ht := by rw [ht, Token.payload_down]
  found ht := by rw [ht, Found.ofToken_down]
  span ht := by rw [ht]; rfl
  item hr := by
    rw [hr]
    rename_i r _
    obtain ⟨chunks, item⟩ := r
    cases item with
    | ok tok => exact .ok rfl
    | error x => exact .error ⟨rfl, rfl⟩
  readTally_add ha hr := by rw [ha, hr, Reading.tally_down, ReadTally.add_assoc]
  evalTally_add x ha := by rw [ha, EvalTally.add_assoc]
  stores_append _ _ := trivial

theorem Diagnostic.like_down_iff (k : Nat) (x x' : Diagnostic) :
    x.Like (fun p p' => p' = p.down k) x' ↔ x' = x.down k := by
  obtain ⟨problem, span⟩ := x
  obtain ⟨problem', span'⟩ := x'
  constructor
  · rintro ⟨hp, hs⟩
    exact congrArg₂ Diagnostic.mk hp hs
  · intro h
    cases h
    exact ⟨rfl, rfl⟩

theorem Output.like_down_iff (k : Nat) (o o' : Output) :
    Output.Like (fun p p' => p' = p.down k) o o' ↔ o' = o.down k := by
  constructor
  · rintro (n | h)
    · rfl
    · exact congrArg Output.diagnostic ((Diagnostic.like_down_iff k _ _).mp h)
  · rintro rfl
    cases o with
    | value n => exact .value n
    | diagnostic x => exact .diagnostic ((Diagnostic.like_down_iff k _ _).mpr rfl)

section

variable {α β : Type} {f : α → β} {R : α → β → Prop}

theorem forall₂_iff_eq_map (hR : ∀ a b, R a b ↔ b = f a) {l : List α} {l' : List β} :
    List.Forall₂ R l l' ↔ l' = l.map f := by
  induction l generalizing l' with
  | nil => exact List.forall₂_nil_left_iff
  | cons a l ih =>
    rw [List.forall₂_cons_left_iff]
    constructor
    · rintro ⟨b, u, hb, hu, rfl⟩
      rw [(hR a b).mp hb, ih.mp hu, List.map_cons]
    · rintro rfl
      exact ⟨f a, _, (hR _ _).mpr rfl, ih.mpr rfl, rfl⟩

theorem rel_iff_eq_map (hR : ∀ a b, R a b ↔ b = f a) {o : Option α} {o' : Option β} :
    Option.Rel R o o' ↔ o' = o.map f := by
  constructor
  · rintro (h | -)
    · exact congrArg some ((hR _ _).mp h)
    · rfl
  · rintro rfl
    cases o with
    | none => exact .none
    | some a => exact .some ((hR _ _).mpr rfl)

end

/-- To be further down is to be alike in this way. -/
theorem displaced_iff : Displaced d s s' ↔ s.Like d.likeness s' := by
  have hd := Diagnostic.like_down_iff d.lines
  have ho := Output.like_down_iff d.lines
  -- field by field: a relation that is the graph of a map relates what the map gives
  constructor
  · intro h
    exact {
      unread := (forall₂_iff_eq_map fun _ _ => Iff.rfl).mpr h.unread
      size := h.size
      lookahead := (forall₂_iff_eq_map fun _ _ => Iff.rfl).mpr h.lookahead
      queue := (forall₂_iff_eq_map ho).mpr h.queue
      fault := (rel_iff_eq_map hd).mpr h.fault
      failure := (rel_iff_eq_map hd).mpr h.failure
      depth := h.depth
      halted := h.halted
      finished := h.finished
      readTally := h.readTally
      evalTally := h.evalTally
      stores := trivial }
  · intro h
    exact {
      unread := (forall₂_iff_eq_map fun _ _ => Iff.rfl).mp h.unread
      size := h.size
      lookahead := (forall₂_iff_eq_map fun _ _ => Iff.rfl).mp h.lookahead
      queue := (forall₂_iff_eq_map ho).mp h.queue
      fault := (rel_iff_eq_map hd).mp h.fault
      failure := (rel_iff_eq_map hd).mp h.failure
      depth := h.depth
      halted := h.halted
      finished := h.finished
      readTally := h.readTally
      evalTally := h.evalTally }

/-! ### Evaluations -/

theorem Feed.recover_displaced {r : Bool} (h : Displaced d s s') (hp : recover s = .ok r t) :
    ∃ t', recover s' = .ok r t' ∧ Displaced d t t' := by
  obtain ⟨t', hp', hlike⟩ := recover_like (displaced_iff.mp h) hp
  exact ⟨t', hp', displaced_iff.mpr hlike⟩

theorem Eval.statement_displaced (scope : Scope)
    (hs : ∀ p, scope.standIn (p.down d.lines) = scope.standIn p) (h : Displaced d s s') :
    match statement scope s with
    | .ok r t => ∃ t', statement scope s' = .ok r t' ∧ Displaced d t t'
    | .error (.fatal x) t =>
      ∃ t', statement scope s' = .error (.fatal (x.down d.lines)) t' ∧ Displaced d t t'
    | .error (.breach _) _ => True := by
  have hpar : Parallel d.likeness Eq (statement scope) (statement scope) :=
    .statement fun p p' hp => hp ▸ hs p
  have hst := hpar s s' (displaced_iff.mp h)
  cases he : statement scope s with
  | ok r t =>
    rw [he] at hst
    obtain ⟨_, t', ht, rfl, hlike⟩ := hst
    exact ⟨t', ht, displaced_iff.mpr hlike⟩
  | error e t =>
    rw [he] at hst
    cases e with
    | fatal x =>
      obtain ⟨x', t', ht, hx, hlike⟩ := hst
      rw [(Diagnostic.like_down_iff d.lines _ _).mp hx] at ht
      exact ⟨t', ht, displaced_iff.mpr hlike⟩
    | breach b => trivial

end LineCalc
