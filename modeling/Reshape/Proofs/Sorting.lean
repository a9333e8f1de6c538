import Mathlib.Order.Monotone.Basic
import Reshape.Proofs.Arrangement

/-!
# Sorting by places

The sort of an array compares the places of outcomes in the total order of doubles. This is the
order of the numbers, in which the negative zero comes before the positive one
(`Double.orderKey_lt_iff`), and any two different doubles are in this order one way or the other.
`Outcome.toArray_sorts_stably` says what comes before what in an array, and that outcomes which ask
for no place stay as they are.
-/

namespace Reshape

/-! ## The total order of doubles -/

namespace Double

/-- The next rank is a larger number. -/
theorem unitsOfRank_lt_succ (rank : Nat) : unitsOfRank rank < unitsOfRank (rank + 1) := by
  have positive : 0 < Nat.pow 2 (rank / binade - 1) := Nat.two_pow_pos _
  have spaced : binade = 4503599627370496 := rfl
  unfold unitsOfRank
  dsimp only
  by_cases same : (rank + 1) / binade - 1 = rank / binade - 1
  · rw [same]
    refine Nat.mul_lt_mul_of_pos_right ?_ positive
    rw [spaced] at same ⊢
    omega
  · -- the last rank of a binade: the next one is the first in a spacing twice as wide
    have shifts : (rank + 1) / binade - 1 = rank / binade - 1 + 1 := by
      rw [spaced] at same ⊢
      omega
    have significand : rank + 1 - (rank / binade - 1 + 1) * binade = binade := by
      rw [spaced] at same ⊢
      omega
    have before : rank - (rank / binade - 1) * binade + 1 = 2 * binade := by
      rw [spaced] at same ⊢
      omega
    have doubled : Nat.pow 2 (rank / binade - 1 + 1) = 2 * Nat.pow 2 (rank / binade - 1) := by
      change 2 ^ (rank / binade - 1 + 1) = 2 * 2 ^ (rank / binade - 1)
      rw [Nat.pow_succ, Nat.mul_comm]
    rw [shifts, significand, doubled, ← Nat.mul_assoc, Nat.mul_comm binade 2, ← before]
    exact Nat.mul_lt_mul_of_pos_right (Nat.lt_succ_self _) positive

theorem unitsOfRank_strictMono : StrictMono unitsOfRank :=
  strictMono_nat_of_lt_succ unitsOfRank_lt_succ

/-- The number that a double is, in multiples of the smallest positive double. -/
def value (x : Double) : Int := if x.negative then -(x.units : Int) else x.units

/-- The total order: smaller numbers first, and the negative zero before the positive one. -/
def Below (x y : Double) : Prop :=
  x.value < y.value ∨ (x.value = y.value ∧ x.negative = true ∧ y.negative = false)

theorem orderKey_lt_iff {x y : Double} : x.orderKey < y.orderKey ↔ x.Below y := by
  obtain ⟨negative, rank, _⟩ := x
  obtain ⟨negative', rank', _⟩ := y
  have less : unitsOfRank rank < unitsOfRank rank' ↔ rank < rank' :=
    unitsOfRank_strictMono.lt_iff_lt
  have less' : unitsOfRank rank' < unitsOfRank rank ↔ rank' < rank :=
    unitsOfRank_strictMono.lt_iff_lt
  unfold Below value orderKey units
  cases negative with
  | false =>
    cases negative' with
    | false => simp [less]
    | true => simp; omega
  | true =>
    cases negative' with
    | false => simp; omega
    | true => simp [less']

end Double

/-! ## What comes before what -/

namespace Outcome

/-- The place of an outcome at a position: the one that its index asks for, or the position. -/
def sortKey (entry : Outcome × Nat) : Double :=
  (asked? entry.1.index).getD (Double.ofNat false entry.2)

/-- A smaller place comes first, and of one place the smaller position. -/
def Precedes (a b : Outcome × Nat) : Prop :=
  (sortKey a).Below (sortKey b) ∨ (sortKey a = sortKey b ∧ a.2 < b.2)

theorem before_placeKey_iff {a b : Outcome × Nat} : Before placeKey a b ↔ Precedes a b := by
  have key : ∀ entry, placeKey entry = (sortKey entry).orderKey := fun entry =>
    congrArg Double.orderKey (value_place_eq entry.1.index entry.2)
  rw [Before, Precedes, key, key, Double.orderKey_lt_iff, Double.orderKey_inj]

/-- In a list that is in the order of keys, an entry stands in front of another one exactly if it
comes before it. -/
theorem Arranges.lt_iff_before {key : Outcome × Nat → Int} {outcomes : List Outcome}
    {placed : List (Outcome × Nat)} (arranged : Arranges key outcomes placed) {i j : Nat}
    (left : i < placed.length) (right : j < placed.length) :
    i < j ↔ Before key placed[i] placed[j] := by
  have inOrder := List.pairwise_iff_getElem.mp arranged.inOrder
  constructor
  · exact inOrder i j left right
  · intro before
    rcases Nat.lt_trichotomy i j with less | same | greater
    · exact less
    · subst same
      unfold Before at before
      omega
    · have back := inOrder j i right left greater
      unfold Before at before back
      omega

/-- Outcomes are collected into an array that holds each of them once, as the object of its fields
whose keys are not reserved. One stands in front of another exactly if its place comes first in the
total order of doubles, or if both have one place and it was evaluated first. The place is the
double that the index is or spells, and otherwise the position of the outcome. Where no index is or
spells a double, the outcomes stay in the order of the items, however many there are. -/
theorem toArray_sorts_stably (outcomes : List Outcome) :
    (∀ outcome : Outcome,
      outcome.output = .object (outcome.fields.filter fun field => !isReserved field.1)) ∧
    ∃ placed : List (Outcome × Nat),
      (toArray outcomes).value = .array (placed.map fun entry => entry.1.output) ∧
      placed.Perm outcomes.zipIdx ∧ placed.length = outcomes.length ∧
      (∀ i j (left : i < placed.length) (right : j < placed.length),
        i < j ↔ Precedes placed[i] placed[j]) ∧
      ((∀ outcome ∈ outcomes, asked? outcome.index = none) →
        (toArray outcomes).value = .array (outcomes.map output)) := by
  obtain ⟨placed, arranged, inOrder⟩ := exists_arrangement outcomes
  refine ⟨fun outcome => rfl, placed, ?_, arranged.perm, ?_, fun i j left right => ?_,
    fun unplaced => ?_⟩
  · rw [value_toArray, ← inOrder, List.map_map]
    rfl
  · rw [arranged.perm.length_eq, List.length_zipIdx]
  · rw [arranged.lt_iff_before left right, before_placeKey_iff]
  · rw [value_toArray, sorted_of_unplaced unplaced]

end Outcome

end Reshape
