/-!
# Finite doubles

A finite double is a sign and a rank: its place when the nonnegative doubles are counted upwards
from zero. Ranks make the arithmetic short. The doubles of one binade are evenly spaced, so the
rank splits into a shift, which is the spacing, and a significand; `Double.units` reads a rank back
as a multiple of the smallest positive double, and `Double.rankOfRatio` finds the rank nearest to an
exact quotient.

Two orders are in use: `Double.orderKey` separates the two zeros and is total, and the relation `<`
compares the numbers themselves, for which the zeros are the same.
-/

namespace Reshape

/-- The quotient rounded to the nearest integer, a half to the even one. -/
def roundQuotient (numerator denominator : Nat) : Nat :=
  let quotient := numerator / denominator
  let twice := 2 * (numerator % denominator)
  if twice < denominator ∨ (twice = denominator ∧ quotient % 2 = 0) then quotient
  else quotient + 1

/-- The number of doubles in a binade. -/
def binade : Nat := Nat.pow 2 52

/-- The rank just beyond the largest finite double. -/
def rankLimit : Nat := 2047 * binade

/-- One is this many times the smallest positive double. -/
def unitsPerOne : Nat := Nat.pow 2 1074

/-- A finite double: its sign, and the place of its magnitude among the nonnegative doubles. -/
structure Double where
  negative : Bool
  rank : Nat
  rank_lt : rank < rankLimit := by decide
deriving DecidableEq

namespace Double

/-! ## Ranks and magnitudes -/

/-- The magnitude of a rank, counted in multiples of the smallest positive double. -/
def unitsOfRank (rank : Nat) : Nat :=
  let shift := rank / binade - 1
  (rank - shift * binade) * Nat.pow 2 shift

/-- The rank nearest to a quotient, an exact middle going to the even rank. It is `rankLimit` or
more when the quotient is beyond the finite doubles. -/
def rankOfRatio (numerator denominator : Nat) : Nat :=
  let shift := (numerator * unitsPerOne / denominator).log2 - 52
  shift * binade + roundQuotient (numerator * unitsPerOne) (denominator * Nat.pow 2 shift)

/-- The magnitude, counted in multiples of the smallest positive double. -/
def units (x : Double) : Nat := unitsOfRank x.rank

/-! ## Construction -/

/-- The double nearest to a signed quotient, if it is finite. -/
def ofRatio? (negative : Bool) (numerator denominator : Nat) : Option Double :=
  let rank := rankOfRatio numerator denominator
  if finite : rank < rankLimit then some ⟨negative, rank, finite⟩ else none

/-- The double nearest to a signed natural number; the largest double when there is none near. -/
def ofNat (negative : Bool) (n : Nat) : Double :=
  ⟨negative, min (rankOfRatio n 1) (rankLimit - 1),
    Nat.lt_of_le_of_lt (Nat.min_le_right ..) (by decide)⟩

/-- The double nearest to an integer. -/
def ofInt (n : Int) : Double := ofNat (n < 0) n.natAbs

/-- Zero with a positive sign. -/
def zero : Double := ⟨false, 0, by decide⟩

/-- Whether the double is one of the two zeros. -/
def isZero (x : Double) : Bool := x.rank == 0

/-- The same magnitude with the sign given. -/
def withSign (x : Double) (negative : Bool) : Double := { x with negative }

/-! ## Arithmetic on magnitudes -/

/-- The product of two magnitudes, rounded once; none when it is not finite. -/
def mul? (x y : Double) : Option Double :=
  ofRatio? false (x.units * y.units) (unitsPerOne * unitsPerOne)

/-- The quotient of two magnitudes, rounded once; none when it is not finite. -/
def div? (x y : Double) : Option Double :=
  ofRatio? false x.units y.units

/-! ## Orders -/

/-- A place in the total order in which the negative zero stands before the positive one. -/
def orderKey (x : Double) : Int := if x.negative then -(x.rank : Int) - 1 else x.rank

/-- A place in the numerical order, the same for both zeros. -/
def numberKey (x : Double) : Int := if x.negative then -(x.rank : Int) else x.rank

instance : LT Double := ⟨fun x y => x.numberKey < y.numberKey⟩

instance (x y : Double) : Decidable (x < y) :=
  inferInstanceAs (Decidable (x.numberKey < y.numberKey))

/-- The total order leaves no two doubles in one place. -/
theorem orderKey_inj {x y : Double} : x.orderKey = y.orderKey ↔ x = y := by
  constructor
  · obtain ⟨sx, rx, hx⟩ := x
    obtain ⟨sy, ry, hy⟩ := y
    cases sx <;> cases sy <;> simp only [orderKey] <;> intro same <;>
      simp at same ⊢ <;> omega
  · rintro rfl
    rfl

end Double

end Reshape
