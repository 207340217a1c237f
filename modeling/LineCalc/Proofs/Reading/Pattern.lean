import LineCalc.Proofs.Reading.Chunks

/-!
# Patterns

Each rule has a pattern. A pattern may match in several ways at the start of a text, and there is an
order among them: a row of characters is taken as long as can be before it is taken shorter, and
the first of two patterns is tried before the second. What a pattern takes is the way that comes
first, which need not be the longest; but for the patterns of all rules it is.
-/

namespace LineCalc

/-- A pattern for the start of a text. -/
inductive Pattern where
  /-- No character. -/
  | nothing
  /-- A character with a property. -/
  | one (p : Char → Bool)
  /-- Characters with a property, as many as can be. -/
  | many (p : Char → Bool)
  /-- A pattern, and then another. -/
  | both (a b : Pattern)
  /-- A pattern, or else another. -/
  | either (a b : Pattern)
  /-- The end of a word: no word character follows. It stands behind word characters only. -/
  | wordEnd

namespace Pattern

/-- The lengths of what the pattern matches at the start of the text, in the order of preference. -/
def lengths : Pattern → List Char → List Nat
  | nothing, _ => [0]
  | one p, text => if text.head?.any p then [1] else []
  | many p, text => (List.range (runLength p text + 1)).reverse
  | both a b, text => (a.lengths text).flatMap fun n => (b.lengths (text.drop n)).map (n + ·)
  | either a b, text => a.lengths text ++ b.lengths text
  | wordEnd, text => if Text.wordEndsBefore text then [0] else []

/-- The pattern describes the lexeme, if `rest` follows it. -/
inductive Matches : Pattern → (lexeme rest : List Char) → Prop where
  | nothing (rest : List Char) : Matches nothing [] rest
  | one {p : Char → Bool} {c : Char} (h : p c = true) (rest : List Char) : Matches (one p) [c] rest
  | many {p : Char → Bool} {lexeme : List Char} (h : ∀ c ∈ lexeme, p c = true)
    (rest : List Char) : Matches (many p) lexeme rest
  | both {a b : Pattern} {u v rest : List Char} (ha : Matches a u (v ++ rest))
    (hb : Matches b v rest) : Matches (both a b) (u ++ v) rest
  | left {a b : Pattern} {lexeme rest : List Char} (h : Matches a lexeme rest) :
    Matches (either a b) lexeme rest
  | right {a b : Pattern} {lexeme rest : List Char} (h : Matches b lexeme rest) :
    Matches (either a b) lexeme rest
  | wordEnd {rest : List Char} (h : Text.wordEndsBefore rest = true) : Matches wordEnd [] rest

variable {a b : Pattern} {p : Char → Bool} {c : Char} {text lexeme rest : List Char} {n m : Nat}

theorem mem_lengths_one : n ∈ (one p).lengths text ↔ text.head?.any p = true ∧ n = 1 := by
  rw [lengths]
  split <;> simp [*]

theorem mem_lengths_many : n ∈ (many p).lengths text ↔ n ≤ runLength p text := by
  rw [lengths, List.mem_reverse, List.mem_range, Nat.lt_succ_iff]

theorem mem_lengths_both : n ∈ (both a b).lengths text ↔
    ∃ i ∈ a.lengths text, ∃ j ∈ b.lengths (text.drop i), n = i + j := by
  simp only [lengths, List.mem_flatMap, List.mem_map, eq_comm]

theorem mem_lengths_either :
    n ∈ (either a b).lengths text ↔ n ∈ a.lengths text ∨ n ∈ b.lengths text := List.mem_append

theorem mem_lengths_wordEnd :
    n ∈ wordEnd.lengths text ↔ Text.wordEndsBefore text = true ∧ n = 0 := by
  rw [lengths]
  split <;> simp [*]

/-- A row of characters with a property is part of the longest one. -/
theorem length_le_runLength_iff (p : Char → Bool) (lexeme rest : List Char) :
    lexeme.length ≤ runLength p (lexeme ++ rest) ↔ ∀ c ∈ lexeme, p c = true := by
  constructor
  · intro h c hc
    have hpre : lexeme <+: (lexeme ++ rest).takeWhile p :=
      List.prefix_of_prefix_length_le (List.prefix_append _ _) (List.takeWhile_prefix p) h
    exact List.all_eq_true.mp List.all_takeWhile c (hpre.subset hc)
  · intro h
    rw [runLength, List.takeWhile_append_of_pos h, List.length_append]
    exact Nat.le_add_right _ _

/-- A number of characters of a run is the length of a row of them. -/
theorem le_runLength_iff : n ≤ runLength p text ↔ ∃ lexeme rest, text = lexeme ++ rest ∧
    lexeme.length = n ∧ (many p).Matches lexeme rest := by
  constructor
  · intro h
    have hn : (text.take n).length = n :=
      List.length_take_of_le (Nat.le_trans h (runLength_le p text))
    refine ⟨text.take n, text.drop n, (List.take_append_drop n text).symm, hn, .many ?_ _⟩
    refine (length_le_runLength_iff p (text.take n) (text.drop n)).mp ?_
    rwa [hn, List.take_append_drop]
  · rintro ⟨lexeme, rest, rfl, rfl, h⟩
    cases h with
    | many h => exact (length_le_runLength_iff p lexeme rest).mpr h

/-- The lengths are those of the lexemes that the pattern describes. -/
theorem mem_lengths_iff :
    n ∈ a.lengths text ↔ ∃ lexeme rest, text = lexeme ++ rest ∧ lexeme.length = n ∧
      a.Matches lexeme rest := by
  -- two patterns in a row: the second one starts behind what the first one takes
  induction a generalizing text n with
  | nothing =>
    constructor
    · intro h
      obtain rfl : n = 0 := by simpa [lengths] using h
      exact ⟨[], text, rfl, rfl, .nothing text⟩
    · rintro ⟨lexeme, rest, rfl, rfl, ⟨⟩⟩
      exact List.mem_singleton.mpr rfl
  | one p =>
    rw [mem_lengths_one]
    constructor
    · rintro ⟨h, rfl⟩
      cases text with
      | nil => cases h
      | cons c rest => exact ⟨[c], rest, rfl, rfl, .one h rest⟩
    · rintro ⟨lexeme, rest, rfl, rfl, h⟩
      cases h with
      | one h => exact ⟨h, rfl⟩
  | many p => exact mem_lengths_many.trans le_runLength_iff
  | both a b iha ihb =>
    rw [mem_lengths_both]
    constructor
    · rintro ⟨i, hi, j, hj, rfl⟩
      obtain ⟨u, rest, rfl, rfl, ha⟩ := iha.mp hi
      rw [List.drop_left] at hj
      obtain ⟨v, rest, rfl, rfl, hb⟩ := ihb.mp hj
      exact ⟨u ++ v, rest, by simp, by simp, .both ha hb⟩
    · rintro ⟨lexeme, rest, rfl, rfl, h⟩
      cases h with
      | @both a b u v rest ha hb =>
        rw [List.append_assoc]
        refine ⟨u.length, iha.mpr ⟨u, v ++ rest, rfl, rfl, ha⟩, v.length, ?_,
          List.length_append⟩
        rw [List.drop_left]
        exact ihb.mpr ⟨v, rest, rfl, rfl, hb⟩
  | either a b iha ihb =>
    rw [mem_lengths_either, iha, ihb]
    constructor
    · rintro (⟨lexeme, rest, ht, hn, h⟩ | ⟨lexeme, rest, ht, hn, h⟩)
      · exact ⟨lexeme, rest, ht, hn, .left h⟩
      · exact ⟨lexeme, rest, ht, hn, .right h⟩
    · rintro ⟨lexeme, rest, ht, hn, h⟩
      cases h with
      | left h => exact .inl ⟨lexeme, rest, ht, hn, h⟩
      | right h => exact .inr ⟨lexeme, rest, ht, hn, h⟩
  | wordEnd =>
    rw [mem_lengths_wordEnd]
    constructor
    · rintro ⟨h, rfl⟩
      exact ⟨[], text, rfl, rfl, .wordEnd h⟩
    · rintro ⟨lexeme, rest, rfl, rfl, h⟩
      cases h with
      | wordEnd h => exact ⟨h, rfl⟩

/-! ### What a pattern takes -/

/-- The pattern takes so many characters at the start of the text, or does not match: this comes
first among its lengths, and none of them is greater. -/
structure Takes (a : Pattern) (text : List Char) (o : Option Nat) : Prop where
  head : (a.lengths text).head? = o
  le : ∀ m ∈ a.lengths text, ∃ n, o = some n ∧ m ≤ n

variable {o o' : Option Nat}

theorem Takes.lengths_eq_nil (h : a.Takes text none) : a.lengths text = [] :=
  List.head?_eq_none_iff.mp h.head

theorem Takes.mem (h : a.Takes text (some n)) : n ∈ a.lengths text :=
  List.mem_of_mem_head? h.head

theorem takes_none (h : a.lengths text = []) : a.Takes text none :=
  ⟨by rw [h]; rfl, fun m hm => absurd (h ▸ hm) List.not_mem_nil⟩

theorem takes_nothing (text : List Char) : nothing.Takes text (some 0) :=
  ⟨rfl, fun _ hm => ⟨0, rfl, Nat.le_of_eq (List.mem_singleton.mp hm)⟩⟩

theorem takes_one (p : Char → Bool) (text : List Char) :
    (one p).Takes text (if text.head?.any p then some 1 else none) := by
  refine ⟨by rw [lengths]; split <;> rfl, fun m hm => ?_⟩
  obtain ⟨h, rfl⟩ := mem_lengths_one.mp hm
  exact ⟨1, if_pos h, Nat.le_refl 1⟩

theorem takes_many (p : Char → Bool) (text : List Char) :
    (many p).Takes text (some (runLength p text)) := by
  refine ⟨?_, fun m hm => ⟨_, rfl, mem_lengths_many.mp hm⟩⟩
  rw [lengths, List.range_succ, List.reverse_append]
  rfl

/-- One pattern behind another. With less for the first, the two of them take no more. -/
theorem Takes.both {k : Nat → Option Nat} (ha : a.Takes text o)
    (hcut : ∀ n, o = some n → ∀ m ∈ a.lengths text, m < n → ∀ j ∈ b.lengths (text.drop m),
      ∃ i, k n = some i ∧ m + j ≤ n + i)
    (hb : ∀ n, o = some n → b.Takes (text.drop n) (k n)) :
    (both a b).Takes text (o.bind fun n => (k n).map (n + ·)) := by
  cases o with
  | none => exact takes_none (by rw [lengths, ha.lengths_eq_nil]; rfl)
  | some n =>
    have hb := hb n rfl
    -- no way to match takes more: a shorter first part by `hcut`, the longest by `hb`
    have hle : ∀ m ∈ a.lengths text, ∀ j ∈ b.lengths (text.drop m),
        ∃ i, k n = some i ∧ m + j ≤ n + i := by
      intro m hm j hj
      obtain ⟨_, ⟨⟩, hmn⟩ := ha.le m hm
      rcases Nat.lt_or_eq_of_le hmn with hlt | rfl
      · exact hcut n rfl m hm hlt j hj
      · obtain ⟨i, hi, hji⟩ := hb.le j hj
        exact ⟨i, hi, Nat.add_le_add_left hji m⟩
    refine ⟨?_, fun l hl => ?_⟩
    · obtain ⟨ns, hns⟩ := List.head?_eq_some_iff.mp ha.head
      rw [lengths, List.head?_flatMap, Option.bind_some]
      cases hk : k n with
      | some i =>
        rw [hns, List.findSome?_cons, List.head?_map, hb.head, hk]
        rfl
      | none =>
        refine List.findSome?_eq_none_iff.mpr fun m hm => ?_
        cases hj : b.lengths (text.drop m) with
        | nil => rfl
        | cons j js =>
          obtain ⟨i, hi, -⟩ := hle m hm j (by rw [hj]; exact List.mem_cons_self)
          rw [hk] at hi
          cases hi
    · obtain ⟨m, hm, j, hj, rfl⟩ := mem_lengths_both.mp hl
      obtain ⟨i, hi, h⟩ := hle m hm j hj
      exact ⟨n + i, by rw [Option.bind_some, hi]; rfl, h⟩

/-- One pattern or another. If both match, the first one takes no less. -/
theorem Takes.either (ha : a.Takes text o) (hb : b.Takes text o')
    (h : ∀ n m, o = some n → o' = some m → m ≤ n) : (either a b).Takes text (o.or o') := by
  refine ⟨by rw [lengths, List.head?_append, ha.head, hb.head], fun i hi => ?_⟩
  rcases mem_lengths_either.mp hi with hi | hi
  · obtain ⟨n, rfl, hn⟩ := ha.le i hi
    exact ⟨n, rfl, hn⟩
  · obtain ⟨m, rfl, hm⟩ := hb.le i hi
    cases o with
    | none => exact ⟨m, rfl, hm⟩
    | some n => exact ⟨n, rfl, Nat.le_trans hm (h n m rfl rfl)⟩

theorem Takes.cons (hc : p c = true) (hb : b.Takes rest o) :
    (Pattern.both (one p) b).Takes (c :: rest) (o.map (1 + ·)) := by
  have ha := takes_one p (c :: rest)
  rw [if_pos (by exact hc)] at ha
  refine ha.both (k := fun _ => o) (fun n hn m hm hlt => ?_) fun n hn => ?_
  · cases hn
    have := (mem_lengths_one.mp hm).2
    omega
  · cases hn
    exact hb

theorem takes_cons_none (h : text.head?.any p = false) : (both (one p) b).Takes text none := by
  refine takes_none ?_
  rw [lengths, lengths, if_neg (by simp [h])]
  rfl

/-! ### What lexemes are made of -/

/-- Every character of a lexeme of the pattern has the property. -/
def Over (q : Char → Bool) : Pattern → Prop
  | nothing | wordEnd => True
  | one p | many p => ∀ c, p c = true → q c = true
  | both a b | either a b => a.Over q ∧ b.Over q

variable {q : Char → Bool}

theorem Matches.of_over (h : a.Matches lexeme rest) (ho : a.Over q) : ∀ c ∈ lexeme, q c = true := by
  induction h with
  | nothing | wordEnd => exact fun c hc => absurd hc List.not_mem_nil
  | one h =>
    intro c hc
    obtain rfl := List.mem_singleton.mp hc
    exact ho _ h
  | many h => exact fun c hc => ho c (h c hc)
  | both ha hb iha ihb =>
    intro c hc
    rcases List.mem_append.mp hc with hc | hc
    · exact iha ho.1 c hc
    · exact ihb ho.2 c hc
  | left h ih => exact ih ho.1
  | right h ih => exact ih ho.2

/-- Where a lexeme of the pattern is cut short, one of its characters follows. -/
theorem exists_drop_of_lt (ho : a.Over q) (hn : n ∈ a.lengths text) (hm : m < n) :
    ∃ c rest, text.drop m = c :: rest ∧ q c = true := by
  obtain ⟨lexeme, rest, rfl, rfl, h⟩ := mem_lengths_iff.mp hn
  refine ⟨lexeme[m], lexeme.drop (m + 1) ++ rest, ?_, h.of_over ho _ (List.getElem_mem hm)⟩
  rw [List.drop_append_of_le_length (Nat.le_of_lt hm), List.drop_eq_getElem_cons hm]
  rfl

end Pattern

end LineCalc
