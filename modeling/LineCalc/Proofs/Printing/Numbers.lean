import LineCalc.Number.Text

/-!
# The form of printed numbers

In positional notation a decimal is a row of digits, perhaps with a point and another row of digits
behind. A finite float is printed with a point, and in front of the digits stands nothing but a sign.
-/

namespace LineCalc

namespace Decimal

/-- A row of digits, of which there may be none. -/
def AllDigits (row : List Char) : Prop := ∀ c ∈ row, c.isDigit = true

theorem allDigits_append {row row' : List Char} :
    AllDigits (row ++ row') ↔ AllDigits row ∧ AllDigits row' := List.forall_mem_append

theorem allDigits_digits (n : Nat) : AllDigits (digits n) :=
  fun _ hc => Nat.isDigit_of_mem_toDigits (by decide) (by decide) hc

theorem allDigits_zeros (n : Nat) : AllDigits (zeros n) := by
  intro c hc
  obtain rfl := (List.mem_replicate.mp hc).2
  rfl

theorem allDigits_fractionDigits (d : Decimal) : AllDigits d.fractionDigits := by
  unfold fractionDigits
  dsimp only
  split
  · exact fun _ hc => absurd hc List.not_mem_nil
  · exact allDigits_append.mpr ⟨allDigits_zeros _, allDigits_digits _⟩

/-- Digits in front of the point, and digits behind it. -/
structure Printed (text whole fraction : List Char) : Prop where
  text : text = whole ++ if fraction.isEmpty then [] else '.' :: fraction
  whole_ne_nil : whole ≠ []
  whole : AllDigits whole
  fraction : AllDigits fraction

/-- What positional notation looks like. -/
theorem exists_printed (least : Nat) (d : Decimal) :
    ∃ fraction, Printed (positional least d) d.wholeDigits fraction ∧ least ≤ fraction.length := by
  refine ⟨d.fractionDigits ++ zeros (least - d.fractionDigits.length), ⟨rfl, Nat.toDigits_ne_nil,
    allDigits_digits _, allDigits_append.mpr ⟨d.allDigits_fractionDigits, allDigits_zeros _⟩⟩, ?_⟩
  rw [List.length_append, zeros, List.length_replicate]
  omega

end Decimal

end LineCalc
