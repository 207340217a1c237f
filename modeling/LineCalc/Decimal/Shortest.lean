import LineCalc.Binary64

/-!
# Shortest decimals

Many decimals round to the same float. `Decimal.shortest` is the one with the fewest digits, and of
those the one nearest to the float; the larger of two that are equally near. It walks from coarse
decimal grids to fine ones and stops at the first grid with a point that reads back.
-/

namespace LineCalc

/-- The number `coefficient * 10 ^ exponent`. -/
structure Decimal where
  coefficient : Nat
  exponent : Int
deriving DecidableEq, Repr

namespace Decimal

open Binary64 (Magnitude)

/-- The natural number `n` as a decimal. -/
def ofNat (n : Nat) : Decimal := ⟨n, 0⟩

/-- Four times the decimal, as a numerator over the denominator of `v` and its own. -/
def quadrupled (d : Decimal) (v : Magnitude) : Nat :=
  4 * d.coefficient * Nat.pow 10 d.exponent.toNat * v.denominator

/-- `quarters` fourths of the unit of `v`, over the same denominator as `quadrupled`. -/
def unitQuarters (d : Decimal) (v : Magnitude) (quarters : Nat) : Nat :=
  quarters * Nat.pow 2 v.exponent.toNat * Nat.pow 10 (-d.exponent).toNat

/-- Do decimals that lie between a power of two and the float below it have only half the room? -/
def narrowBelow (v : Magnitude) : Bool :=
  v.mantissa == Nat.pow 2 52 && decide (Binary64.leastExponent < v.exponent)

/-- Does the decimal round to `v`? The numbers that do reach half a unit to either side, and include
the two ends when the mantissa is even. -/
def readsBack (v : Magnitude) (d : Decimal) : Bool :=
  let low := d.unitQuarters v (4 * v.mantissa - if narrowBelow v then 1 else 2)
  let high := d.unitQuarters v (4 * v.mantissa + 2)
  let x := d.quadrupled v
  if v.mantissa % 2 = 0 then decide (low ≤ x) && decide (x ≤ high)
  else decide (low < x) && decide (x < high)

/-- The greatest multiple of `10 ^ e` that is not above `v`. -/
def below (v : Magnitude) (e : Int) : Decimal :=
  ⟨v.numerator * Nat.pow 10 (-e).toNat / (v.denominator * Nat.pow 10 e.toNat), e⟩

/-- The next point of the same grid. -/
def next (d : Decimal) : Decimal := { d with coefficient := d.coefficient + 1 }

/-- Is `v` nearer to `d` than to the next point of the grid? -/
def nearerThanNext (v : Magnitude) (d : Decimal) : Bool :=
  let x := d.unitQuarters v (4 * v.mantissa)
  decide (2 * x < d.quadrupled v + d.next.quadrupled v)

/-- The decimal with exponent `e` that reads back as `v`, and is nearest to it. -/
def onGrid? (v : Magnitude) (e : Int) : Option Decimal :=
  let low := below v e
  match readsBack v low, readsBack v low.next with
  | true, true => some (if nearerThanNext v low then low else low.next)
  | true, false => some low
  | false, true => some low.next
  | false, false => none

/-- Walks to finer grids, at most `steps` of them. -/
def refine (v : Magnitude) : Nat → Int → Decimal
  | 0, e => below v e
  | steps + 1, e => (onGrid? v e).getD (refine v steps (e - 1))

/-- An exponent whose power of ten is above `v`. -/
def coarsest (v : Magnitude) : Int :=
  (v.exponent + v.mantissa.log2 + 1) * 30103 / 100000 + 2

/-- The shortest decimal that reads back as the positive magnitude `v`. The walk ends at the latest
on the grid that holds `v` itself. -/
def shortest (v : Magnitude) : Decimal :=
  refine v (coarsest v - min v.exponent 0).toNat (coarsest v)

end Decimal

end LineCalc
