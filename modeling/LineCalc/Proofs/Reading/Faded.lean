import LineCalc.Proofs.Reading.Severed

/-!
# Lexemes in front of blanks

A lexeme stays what it is when spaces come in the place of characters behind it: the spaces sever it from
what is left. The one exception is a name that becomes a keyword when a word character behind it is gone.
-/

namespace LineCalc

/-- `text'` is `text` with spaces in the place of some characters, none of which breaks a line. -/
inductive Faded : (text text' : List Char) → Prop where
  | nil : Faded [] []
  | kept (c : Char) {rest rest' : List Char} (h : Faded rest rest') : Faded (c :: rest) (c :: rest')
  | blank {c : Char} (hc : isLineBreak c = false) {rest rest' : List Char} (h : Faded rest rest') :
      Faded (c :: rest) (' ' :: rest')

namespace Faded

variable {text text' rest rest' : List Char} {c : Char}

theorem append_left (w : List Char) (h : Faded rest rest') : Faded (w ++ rest) (w ++ rest') := by
  induction w with
  | nil => exact h
  | cons c w ih => exact .kept c ih

theorem head?_of_isLineBreak (h : Faded rest rest')
    (hb : ∀ c, rest.head? = some c → isLineBreak c = true) (hc : rest'.head? = some c) :
    isLineBreak c = true := by
  cases h with
  | nil => cases hc
  | kept d h => exact hb c hc
  | blank hd h => exact absurd (hb _ rfl) (by simp [hd])

/-- A row without blanks was there before. -/
theorem severs (h : Faded text text') : Severs isBlank text text' := by
  induction h with
  | nil => exact fun w _ hp => hp
  | kept c h ih => exact ih.append_left [c]
  | blank hc h ih =>
    intro w hw hp
    cases w with
    | nil => exact List.nil_prefix
    | cons d w =>
      obtain ⟨rfl, -⟩ := List.cons_prefix_cons.mp hp
      cases hw ' ' List.mem_cons_self

end Faded

/-- The lexeme is found again, by the same rule, unless it is a name that is spelled like a keyword. -/
theorem Rule.first?_of_faded {names : NameGrammar} {rule : Rule} {w rest rest' : List Char}
    (h : first? names (w ++ rest) = some (rule, w.length))
    (hb : rule ≠ .whiteSpace) (hk : rule = .ident → ∀ f : Func, w ≠ f.keyword.toList)
    (hf : Faded rest rest') : first? names (w ++ rest') = some (rule, w.length) := by
  refine first?_of_blanks h hb hf.severs ?_ fun hi f hw => absurd hw (hk hi f)
  rintro rfl c hc
  exact hf.head?_of_isLineBreak (fun c hc => isLineBreak_of_comment h hc) hc

end LineCalc
