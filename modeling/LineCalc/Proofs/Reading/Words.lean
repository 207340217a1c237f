import LineCalc.Proofs.Reading.Blanked

/-!
# Words

A keyword ends where no word character follows it, of whatever script. A name ends where no letter,
digit or underscore of ASCII does. The two ends come apart in front of a wide character: a word
character beyond ASCII, with which no lexeme starts. There a name can be spelled like a keyword, and
nowhere else.

The names of the memory slots end as keywords do. What the rules find when only these are names, they
find as well when names are free; and the other way round, as long as no wide character stands behind
the name of a slot.
-/

namespace LineCalc

variable {names : NameGrammar} {rule : Rule} {c : Char} {n m : Nat} {w rest text : List Char}

/-! ### Wide characters -/

theorem Rule.familyOf_of_wide (h : Text.isWordChar c = true) (hn : continuesName c = false) :
    familyOf c = none := by
  have hne : ∀ d, Text.isWordChar d = false → c ≠ d := by
    rintro d hd rfl
    rw [h] at hd
    cases hd
  rw [continuesName, Char.isAlphanum, Bool.or_eq_false_iff, Bool.or_eq_false_iff] at hn
  obtain ⟨⟨halpha, hdigit⟩, hlow⟩ := hn
  have hfirst : ¬(c.isDigit || c == '.') = true := by
    rw [hdigit, Bool.false_or, beq_iff_eq]
    exact hne '.' (by decide)
  have hstart : ¬startsName c = true := by rw [startsName, halpha, hlow]; decide
  unfold familyOf
  rw [if_neg hfirst, if_neg hstart]
  split <;> first | rfl | exact absurd rfl (hne _ (by decide))

theorem Rule.first?_of_wide (h : Text.isWordChar c = true) (hn : continuesName c = false)
    (rest : List Char) : first? names (c :: rest) = none := by
  cases hf : first? names (c :: rest) with
  | none => rfl
  | some found =>
    obtain ⟨d, hd, hfamily⟩ := familyOf_of_length? (length?_of_first? hf)
    obtain rfl := Option.some.inj hd
    rw [familyOf_of_wide h hn] at hfamily
    cases hfamily

/-- A word that does not end stands in front of a wide character, if no name goes on there. -/
theorem exists_wide (h : Text.wordEndsBefore rest = false)
    (hn : ∀ c, rest.head? = some c → continuesName c = false) :
    ∃ c rest', rest = c :: rest' ∧ Text.isWordChar c = true ∧ continuesName c = false := by
  cases rest with
  | nil => cases h
  | cons c rest =>
    refine ⟨c, rest, rfl, ?_, hn c rfl⟩
    rwa [Text.wordEndsBefore, Bool.not_eq_false'] at h

namespace Rule

theorem eq_func_or_ident {r : Rule} (h : rule.family = r.family) (hr : rule = .func ∨ rule = .ident) :
    r = .func ∨ r = .ident := by
  rcases hr with rfl | rfl <;> cases r <;> simp_all [family]

/-! ### Keywords -/

/-- Where a keyword ends, the rule for keywords finds it. -/
theorem length?_of_keyword (f : Func) (h : Text.wordEndsBefore rest = true) :
    Rule.func.length? names (f.keyword.toList ++ rest) = some f.keyword.toList.length := by
  have hchars : ∀ f : Func, ∀ c ∈ f.keyword.toList, Text.isWordChar c = true := by
    intro f c hc
    have hall : ∀ c ∈ f.keyword.toList, continuesName c = true :=
      List.all_eq_true.mp (by cases f <;> rfl)
    exact isWordChar_of_continuesName (hall c hc)
  have hword : wordLength? f.keyword.toList (f.keyword.toList ++ rest) =
      some f.keyword.toList.length :=
    wordLength?_eq_some_iff.mpr ⟨List.prefix_append _ _, by rwa [List.drop_left], rfl⟩
  have hsome : (keywordLength? (f.keyword.toList ++ rest)).isSome :=
    List.findSome?_isSome_iff.mpr ⟨f, f.mem_all, by rw [hword]; rfl⟩
  obtain ⟨m, hm⟩ := Option.isSome_iff_exists.mp hsome
  obtain ⟨g, -, hg⟩ := List.exists_of_findSome?_eq_some hm
  have hle := wordLength?_unique (hchars g) hword hg
  have hge := wordLength?_unique (hchars f) hg hword
  rw [length?, hm, Nat.le_antisymm hle hge]

theorem first?_of_keyword (f : Func) (h : Text.wordEndsBefore rest = true) :
    first? names (f.keyword.toList ++ rest) = some (.func, f.keyword.toList.length) := by
  have hfunc : Rule.func.length? names _ = _ := length?_of_keyword f h
  refine first?_eq_some hfunc (fun r m hr => ?_) (by simp)
  rcases eq_func_or_ident (family_eq hfunc hr) (.inl rfl) with rfl | rfl
  · exact Nat.le_of_eq (Option.some.inj (hr.symm.trans hfunc))
  · exact Nat.le_of_eq (length_of_keyword hfunc hr)

/-- A name that is spelled like a keyword does not end as a keyword does. -/
theorem wordEndsBefore_of_ident {f : Func} (hw : w = f.keyword.toList)
    (h : first? names (w ++ rest) = some (.ident, w.length)) : Text.wordEndsBefore rest = false := by
  subst hw
  refine Bool.eq_false_iff.mpr fun he => ?_
  cases h.symm.trans (first?_of_keyword f he)

/-! ### Names of slots -/

/-- What is found when only slots are names is found when names are free. -/
theorem first?_free_of_slots (h : first? .memorySlots text = some (rule, n)) :
    first? .free text = some (rule, n) := by
  -- the two grammars differ in the rule for names only
  have hother : ∀ r : Rule, r ≠ .ident → r.length? .free text = r.length? .memorySlots text := by
    intro r hr
    cases r <;> first | rfl | exact absurd rfl hr
  have hrule : rule.length? .memorySlots text = some n := length?_of_first? h
  have hfree : rule.length? .free text = some n := by
    by_cases hi : rule = .ident
    · subst hi
      obtain ⟨name, hname, hword⟩ := List.exists_of_findSome?_eq_some hrule
      exact length?_free_of_word (startsName_of_slotNames hname) (continuesName_of_slotNames hname)
        hword
    · rw [hother rule hi, hrule]
  -- the rule for names now finds more, but not at a place where a slot or keyword stands
  refine first?_eq_some hfree (fun r m hr => ?_) ?_
  · by_cases hi : r = .ident
    · subst hi
      rcases eq_func_or_ident (family_eq hr hfree) (.inr rfl) with rfl | rfl
      · exact Nat.le_of_eq (length_of_keyword hfree hr)
      · exact Nat.le_of_eq (Option.some.inj (hr.symm.trans hfree))
    · rw [hother r hi] at hr
      exact (le_of_first? h hr).1
  · rintro rfl hfunc
    obtain ⟨hcontra, -⟩ := (le_of_first? h (hother .func (by decide) ▸ hfunc)).2 rfl (by decide)
    cases hcontra

/-- What is found when names are free is found when only slots are, if it is no name or that of a
slot, which ends as a keyword does. -/
theorem first?_slots_of_free (h : first? .free (w ++ rest) = some (rule, w.length))
    (hslot : rule = .ident → String.ofList w ∈ slotNames ∧ Text.wordEndsBefore rest = true) :
    first? .memorySlots (w ++ rest) = some (rule, w.length) := by
  have hsome : (rule.length? .memorySlots (w ++ rest)).isSome := by
    by_cases hi : rule = .ident
    · obtain ⟨hname, hend⟩ := hslot hi
      have hword : wordLength? (String.ofList w).toList (w ++ rest) = some w.length := by
        rw [String.toList_ofList]
        exact wordLength?_eq_some_iff.mpr ⟨List.prefix_append _ _, by rwa [List.drop_left], rfl⟩
      rw [hi]
      exact List.findSome?_isSome_iff.mpr ⟨_, hname, by rw [hword]; rfl⟩
    · have hfree := length?_of_first? h
      cases rule <;> first | exact Option.isSome_of_eq_some hfree | exact absurd rfl hi
  cases hf : first? .memorySlots (w ++ rest) with
  | none =>
    have hnone := List.findSome?_eq_none_iff.mp hf rule (mem_all rule)
    rw [Option.map_eq_none_iff.mp hnone] at hsome
    cases hsome
  | some found => exact (first?_free_of_slots hf).symm.trans h

end Rule

/-! ### Names that are read -/

theorem Chunk.ident_of_item? {place : Cursor} {t : Token}
    (h : item? ⟨.matched rule w, place⟩ = some (.ok t)) (hk : t.kind = .ident) :
    rule = .ident ∧ t.lexeme = String.ofList w ∧ t.payload = .ident (String.ofList w) := by
  obtain ⟨⟨kind, payload⟩, hm, ht⟩ := Option.map_eq_some_iff.mp h
  obtain rfl : kind = .ident := (kind_of_tokenOf ht).symm.trans hk
  obtain rfl : rule = .ident := by cases rule <;> first | rfl | cases hm
  cases hm
  cases ht
  exact ⟨rfl, rfl, rfl⟩

theorem Reading.exists_of_ident (names : NameGrammar) (place : Cursor) (text : List Char) {t : Token}
    (ht : .ok t ∈ items names place text) (hk : t.kind = .ident) :
    ∃ w rest, t.lexeme = String.ofList w ∧ t.payload = .ident (String.ofList w) ∧
      Rule.first? names (w ++ rest) = some (.ident, w.length) := by
  induction place, text using Chunk.cut_induction names with
  | nil place =>
    rw [items_nil, List.mem_singleton] at ht
    cases Except.ok.inj ht
    cases hk
  | illegal place c rest h ih =>
    rw [items_illegal h] at ht
    exact ih ((List.mem_cons.mp ht).resolve_left (by simp))
  | matched place rule w rest h ih =>
    rw [items_matched h] at ht
    rcases List.mem_append.mp ht with ht | ht
    · obtain ⟨rfl, hlexeme, hpayload⟩ := Chunk.ident_of_item? (Option.mem_toList.mp ht) hk
      exact ⟨w, rest, hlexeme, hpayload, h⟩
    · exact ih ht

end LineCalc
