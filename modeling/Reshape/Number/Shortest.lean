import Reshape.Number.Double

/-!
# Shortest decimals

Many decimals read back as the same double: those between the middles to its two neighbours, the
middles included when its rank is even. Of them the shortest lie on the coarsest grid `10 ^ k` that
has any. On each grid it is enough to try the multiples just below and just above the double.

Everything is computed in natural numbers. Bounds are counted in halves of the smallest positive
double, so that the middle between two neighbours is a whole number.
-/

namespace Reshape

/-- Which of two equally near decimals is taken. -/
inductive Tie where
  | toEven
  | up
deriving DecidableEq

/-- A decimal: digits read as a natural number, times a power of ten. -/
structure Decimal where
  digits : Nat
  exponent : Int
deriving DecidableEq

namespace Decimal

/-- The part of `10 ^ exponent` that multiplies. -/
def raise (exponent : Int) : Nat := Nat.pow 10 exponent.toNat

/-- The part of `10 ^ exponent` that divides. -/
def lower (exponent : Int) : Nat := Nat.pow 10 (-exponent).toNat

/-- Whether a decimal rounds to the rank, said by exact comparison with the two middles. -/
def readsBack (rank : Nat) (d : Decimal) : Bool :=
  let halves := 2 * unitsPerOne * d.digits * raise d.exponent
  let least := (Double.unitsOfRank (rank - 1) + Double.unitsOfRank rank) * lower d.exponent
  let greatest := (Double.unitsOfRank rank + Double.unitsOfRank (rank + 1)) * lower d.exponent
  if rank % 2 = 0 then least ≤ halves && halves ≤ greatest
  else least < halves && halves < greatest

/-- The multiple of `10 ^ exponent` that reads back as the rank and is nearest to it, if there is
one. -/
def onGrid? (tie : Tie) (rank : Nat) (exponent : Int) : Option Decimal :=
  let numerator := Double.unitsOfRank rank * lower exponent
  let denominator := unitsPerOne * raise exponent
  let below : Decimal := ⟨numerator / denominator, exponent⟩
  let above : Decimal := ⟨numerator / denominator + 1, exponent⟩
  let twice := 2 * (numerator % denominator)
  let belowNearer :=
    twice < denominator || (twice == denominator && tie == .toEven && below.digits % 2 == 0)
  match readsBack rank below, readsBack rank above with
  | true, true => some (if belowNearer then below else above)
  | true, false => some below
  | false, true => some above
  | false, false => none

/-- The exponent of the first digit of a rank. Every positive double has a digit at `10 ^ (-324)` or
before. -/
def leadingExponent (rank : Nat) : Int :=
  let digits := Nat.toDigits 10 (Double.unitsOfRank rank * Nat.pow 10 324 / unitsPerOne)
  (digits.length : Int) - 325

/-- The exponents of the grids that a rank can need, from the coarsest to the finest. The coarsest
holds the power of ten just above the rank, and the finest more digits than a double has. -/
def gridExponents (rank : Nat) : List Int :=
  (List.range 19).map fun i : Nat => leadingExponent rank + 1 - (i : Int)

/-- The decimal with the fewest digits that reads back as the rank, the nearest of these. -/
def shortest (tie : Tie) (rank : Nat) : Decimal :=
  if rank = 0 then ⟨0, 0⟩
  else ((gridExponents rank).findSome? (onGrid? tie rank)).getD ⟨0, 0⟩

end Decimal

end Reshape
