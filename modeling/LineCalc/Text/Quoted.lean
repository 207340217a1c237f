import LineCalc.Text.Graphic

/-!
# Quoted text

Text shown inside quotation marks, on one line: line breaks, tabs and NUL have short escapes, the
backslash and the marks in question are escaped by a backslash, and a character that does not show
as itself is written by its code in hexadecimal. `breaksNoLine_quotedChar` says that a quoted
character stays on one line.
-/

namespace LineCalc.Text

/-- Which quotation marks are escaped. -/
structure QuoteStyle where
  escapesSingle : Bool
  escapesDouble : Bool
deriving DecidableEq, Repr

/-- The style of a character between single quotes. -/
def QuoteStyle.character : QuoteStyle := ⟨true, false⟩

/-- The style of text between double quotes. -/
def QuoteStyle.text : QuoteStyle := ⟨false, true⟩

/-- The code of a character, as in `\u{301}`. -/
def codeEscape (c : Char) : List Char :=
  ['\\', 'u', '\x7b'] ++ Nat.toDigits 16 c.toNat ++ ['\x7d']

/-- A character as it is written between quotation marks. -/
def escape (style : QuoteStyle) (c : Char) : List Char :=
  if c = '\x00' then ['\\', '0']
  else if c = '\t' then ['\\', 't']
  else if c = '\r' then ['\\', 'r']
  else if c = '\n' then ['\\', 'n']
  else if c = '\\' then ['\\', '\\']
  else if c = '\x22' && style.escapesDouble then ['\\', '\x22']
  else if c = '\x27' && style.escapesSingle then ['\\', '\x27']
  else if isGraphic c then [c]
  else codeEscape c

/-- A character between single quotes. -/
def quotedChar (c : Char) : String :=
  String.ofList ('\x27' :: escape .character c ++ ['\x27'])

/-- Text between double quotes. -/
def quoted (s : String) : String :=
  String.ofList ('\x22' :: s.toList.flatMap (escape .text) ++ ['\x22'])

/-! ### Quoted text stays on one line -/

/-- Is there no line break in the text? -/
def BreaksNoLine (text : List Char) : Prop := ∀ c ∈ text, c ≠ '\n' ∧ c ≠ '\r'

theorem breaksNoLine_append {s t : List Char} :
    BreaksNoLine (s ++ t) ↔ BreaksNoLine s ∧ BreaksNoLine t := by
  simp only [BreaksNoLine, List.mem_append, or_imp, forall_and]
  grind

theorem breaksNoLine_cons {c : Char} {t : List Char} :
    BreaksNoLine (c :: t) ↔ (c ≠ '\n' ∧ c ≠ '\r') ∧ BreaksNoLine t := by
  simp [BreaksNoLine]

theorem digitChar_ne_lineBreak (d : Nat) : Nat.digitChar d ≠ '\n' ∧ Nat.digitChar d ≠ '\r' := by
  by_cases h : d < 16
  · exact (by decide : ∀ d < 16, Nat.digitChar d ≠ '\n' ∧ Nat.digitChar d ≠ '\r') d h
  · have hd : Nat.digitChar d = '*' := by
      unfold Nat.digitChar
      repeat rw [if_neg (by omega)]
    rw [hd]
    decide

theorem breaksNoLine_toDigitsCore (base fuel n : Nat) (tail : List Char) (h : BreaksNoLine tail) :
    BreaksNoLine (Nat.toDigitsCore base fuel n tail) := by
  induction fuel generalizing n tail with
  | zero => exact h
  | succ fuel ih =>
    have hd : BreaksNoLine (Nat.digitChar (n % base) :: tail) :=
      breaksNoLine_cons.mpr ⟨digitChar_ne_lineBreak _, h⟩
    rw [Nat.toDigitsCore]
    split
    · exact hd
    · exact ih _ _ hd

theorem breaksNoLine_codeEscape (c : Char) : BreaksNoLine (codeEscape c) := by
  have h : BreaksNoLine (Nat.toDigits 16 c.toNat) :=
    breaksNoLine_toDigitsCore _ _ _ _ (by simp [BreaksNoLine])
  rw [codeEscape, breaksNoLine_append, breaksNoLine_append]
  exact ⟨⟨by simp [BreaksNoLine], h⟩, by simp [BreaksNoLine]⟩

theorem breaksNoLine_escape (style : QuoteStyle) (c : Char) : BreaksNoLine (escape style c) := by
  unfold escape
  split
  · simp [BreaksNoLine]
  split
  · simp [BreaksNoLine]
  split
  · simp [BreaksNoLine]
  split
  · simp [BreaksNoLine]
  split
  · simp [BreaksNoLine]
  split
  · simp [BreaksNoLine]
  split
  · simp [BreaksNoLine]
  split
  · simp_all [BreaksNoLine]
  · exact breaksNoLine_codeEscape c

theorem breaksNoLine_quotedChar (c : Char) : BreaksNoLine (quotedChar c).toList := by
  rw [quotedChar, String.toList_ofList, List.cons_append, breaksNoLine_cons, breaksNoLine_append]
  exact ⟨by decide, breaksNoLine_escape _ c, by simp [BreaksNoLine]⟩

end LineCalc.Text
