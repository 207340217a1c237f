import LineCalc.Diagnostic
import LineCalc.Proofs.Printing.Numbers

/-!
# Texts on one line

Whatever is said of a number or a place stays on one line. What is said of a problem does if the
lexeme or name that it quotes does. A character is quoted in such a way that it always does.
-/

namespace LineCalc

open Text (BreaksNoLine breaksNoLine_append breaksNoLine_cons)

instance (text : List Char) : Decidable (BreaksNoLine text) :=
  List.decidableBAll (fun c => c ≠ '\n' ∧ c ≠ '\r') text

theorem Text.breaksNoLine_toList_append {s t : String} :
    BreaksNoLine (s ++ t).toList ↔ BreaksNoLine s.toList ∧ BreaksNoLine t.toList := by
  rw [String.toList_append, breaksNoLine_append]

open Text (breaksNoLine_toList_append)

/-! ### Numbers -/

namespace Decimal

theorem AllDigits.breaksNoLine {row : List Char} (h : AllDigits row) : BreaksNoLine row := by
  intro c hc
  have hd := h c hc
  constructor <;> rintro rfl <;> cases hd

theorem breaksNoLine_positional (least : Nat) (d : Decimal) :
    BreaksNoLine (positional least d) := by
  obtain ⟨fraction, h, -⟩ := exists_printed least d
  rw [h.text, breaksNoLine_append]
  refine ⟨h.whole.breaksNoLine, ?_⟩
  split
  · decide
  · exact breaksNoLine_cons.mpr ⟨by decide, h.fraction.breaksNoLine⟩

end Decimal

theorem breaksNoLine_signText (x : Float) : BreaksNoLine (signText x) := by
  unfold signText
  split <;> decide

theorem breaksNoLine_specialText (x : Float) : BreaksNoLine (specialText x) := by
  unfold specialText
  split
  · decide
  · exact breaksNoLine_append.mpr ⟨breaksNoLine_signText x, by decide⟩

theorem breaksNoLine_floatText (x : Float) : BreaksNoLine (floatText x) := by
  unfold floatText
  split
  · exact breaksNoLine_append.mpr ⟨breaksNoLine_signText x, Decimal.breaksNoLine_positional _ _⟩
  · exact breaksNoLine_specialText x

theorem breaksNoLine_argumentText (x : Float) : BreaksNoLine (argumentText x) := by
  unfold argumentText
  split
  · exact breaksNoLine_append.mpr ⟨breaksNoLine_signText x, Decimal.breaksNoLine_positional _ _⟩
  · exact breaksNoLine_specialText x

theorem breaksNoLine_repr (n : Nat) : BreaksNoLine n.repr.toList := by
  rw [Nat.toList_repr]
  exact (Decimal.allDigits_digits n).breaksNoLine

/-- A printed number stays on one line. -/
theorem Number.breaksNoLine_text (n : Number) : BreaksNoLine n.text.toList := by
  cases n with
  | int n =>
    rw [text, Int.toString_eq_repr, Int.repr_eq_if]
    split
    · exact breaksNoLine_repr _
    · exact breaksNoLine_toList_append.mpr ⟨by decide, breaksNoLine_repr _⟩
  | float x =>
    rw [text, String.toList_ofList]
    exact breaksNoLine_floatText x

/-! ### Problems -/

theorem ArithError.breaksNoLine_message (e : ArithError) : BreaksNoLine e.message.toList := by
  cases e with
  | divisionByZero => decide +kernel
  | domain f arg =>
    have harg : BreaksNoLine (String.ofList (argumentText arg)).toList := by
      rw [String.toList_ofList]
      exact breaksNoLine_argumentText arg
    unfold message
    simp only [breaksNoLine_toList_append]
    exact ⟨⟨⟨⟨by decide +kernel, by cases f <;> decide +kernel⟩, by decide +kernel⟩, harg⟩,
      by decide +kernel⟩
  | overflow what => cases what <;> decide +kernel

theorem Span.breaksNoLine_text (s : Span) : BreaksNoLine s.text.toList := by
  simp only [text, breaksNoLine_toList_append]
  exact ⟨⟨⟨by decide +kernel, breaksNoLine_repr _⟩, by decide +kernel⟩, breaksNoLine_repr _⟩

/-- The lexeme of the token stays on one line, unless it is a line break, and a name is its own
lexeme. -/
structure Token.OneLine (t : Token) : Prop where
  lexeme : t.kind ≠ .newLine → BreaksNoLine t.lexeme.toList
  name : t.kind = .ident → t.payload = .ident t.lexeme

/-- A line break in the wrong place is called by what it is, and not by its lexeme. -/
theorem Token.OneLine.found {t : Token} (h : t.OneLine) :
    BreaksNoLine (Found.ofToken t).text.toList := by
  unfold Found.ofToken
  split
  · decide +kernel
  · decide +kernel
  · rename_i hne
    unfold Found.text
    simp only [breaksNoLine_toList_append]
    exact ⟨⟨by decide +kernel, h.lexeme hne⟩, by decide +kernel⟩

/-- The lexeme or name that a problem quotes stays on one line. -/
def Problem.QuotesOneLine : Problem → Prop
  | .illegalChar _ | .arithmetic _ => True
  | .literalRange lexeme => BreaksNoLine lexeme.toList
  | .undefined name => BreaksNoLine name.toList
  | .unexpected found | .nesting found => BreaksNoLine found.text.toList

theorem Diagnostic.breaksNoLine_message {d : Diagnostic} (h : d.problem.QuotesOneLine) :
    BreaksNoLine d.message.toList := by
  obtain ⟨problem, span⟩ := d
  simp only [message, breaksNoLine_toList_append]
  refine ⟨⟨⟨?_, by decide +kernel⟩, span.breaksNoLine_text⟩, by decide +kernel⟩
  show BreaksNoLine problem.text.toList
  unfold Problem.text
  cases problem with
  | illegalChar c =>
    simp only [breaksNoLine_toList_append]
    exact ⟨by decide +kernel, Text.breaksNoLine_quotedChar c⟩
  | literalRange lexeme =>
    simp only [breaksNoLine_toList_append]
    exact ⟨⟨by decide +kernel, h⟩, by decide +kernel⟩
  | undefined name =>
    unfold undefinedMessage
    simp only [breaksNoLine_toList_append]
    exact ⟨⟨by decide +kernel, h⟩, by decide +kernel⟩
  | arithmetic e =>
    simp only [breaksNoLine_toList_append]
    exact ⟨by decide +kernel, e.breaksNoLine_message⟩
  | unexpected found | nesting found =>
    simp only [breaksNoLine_toList_append]
    exact ⟨by decide +kernel, h⟩

end LineCalc
