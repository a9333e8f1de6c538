import Mathlib.Algebra.Group.Nat.Defs
import Reshape.Proofs.Arrangement

/-!
# Integers as places

The place of an outcome is a double, also where its index is an integer. Rounding keeps the order of
integers (`Double.orderKey_ofInt_mono`) and loses nothing up to `2 ^ 53` (`Double.ofInt_inj`), but
it brings larger integers together. `Outcome.toArray_of_integers` says what this does to an array:
it is in the order of the integers exactly if no outcome is followed by one with a smaller integer
that rounds to the same double.
-/

namespace Reshape

/-! ## Integers as doubles -/

theorem roundQuotient_of_dvd {numerator denominator : Nat} (positive : 0 < denominator)
    (exact : denominator ∣ numerator) :
    roundQuotient numerator denominator = numerator / denominator := by
  have remainder : numerator % denominator = 0 := Nat.mod_eq_zero_of_dvd exact
  unfold roundQuotient
  dsimp only
  rw [remainder, if_pos (Or.inl positive)]

namespace Double

/-- A rank splits into the shift of its binade and what the shift leaves of the magnitude. -/
theorem unitsOfRank_add {shift quotient : Nat} (lower : shift ≠ 0 → binade ≤ quotient)
    (upper : quotient < 2 * binade) :
    unitsOfRank (shift * binade + quotient) = quotient * Nat.pow 2 shift := by
  have split : (shift * binade + quotient) / binade - 1 = shift := by
    rw [show binade = 4503599627370496 from rfl] at *
    omega
  unfold unitsOfRank
  dsimp only
  rw [split, Nat.add_sub_cancel_left]

/-- A natural number that is a multiple of the spacing of its binade is read back from its rank. -/
theorem unitsOfRank_rankOfRatio {n : Nat}
    (exact : Nat.pow 2 ((n * unitsPerOne).log2 - 52) ∣ n * unitsPerOne) :
    unitsOfRank (rankOfRatio n 1) = n * unitsPerOne := by
  unfold rankOfRatio
  dsimp only
  rw [Nat.div_one, Nat.one_mul]
  generalize n * unitsPerOne = units at exact ⊢
  have rounded : roundQuotient units (Nat.pow 2 (units.log2 - 52)) =
      units / Nat.pow 2 (units.log2 - 52) := roundQuotient_of_dvd (Nat.two_pow_pos _) exact
  rw [rounded, unitsOfRank_add binade_le_shifted (shifted_lt units), Nat.div_mul_cancel exact]

/-- Up to `2 ^ 53` the spacing of the doubles divides one, whatever power of two one is divided
into. -/
theorem spacing_dvd {n units : Nat} (small : n ≤ 2 ^ 53) (power : ∃ k, units = Nat.pow 2 k) :
    Nat.pow 2 ((n * units).log2 - 52) ∣ n * units := by
  obtain ⟨power, rfl⟩ := power
  change 2 ^ ((n * 2 ^ power).log2 - 52) ∣ n * 2 ^ power
  rcases Nat.lt_or_eq_of_le small with less | rfl
  · by_cases zero : n = 0
    · rw [zero, Nat.zero_mul]
      exact Nat.dvd_zero _
    · have positive : n * 2 ^ power ≠ 0 := Nat.mul_ne_zero zero (Nat.two_pow_pos _).ne'
      have below : n * 2 ^ power < 2 ^ (53 + power) := by
        rw [Nat.pow_add]
        exact Nat.mul_lt_mul_of_pos_right less (Nat.two_pow_pos _)
      have log := (Nat.log2_lt positive).mpr below
      exact Nat.dvd_mul_left_of_dvd (Nat.pow_dvd_pow 2 (by omega)) n
  · rw [← Nat.pow_add, Nat.log2_two_pow]
    exact Nat.pow_dvd_pow 2 (by omega)

theorem unitsPerOne_pos : 0 < unitsPerOne := by decide +kernel

theorem unitsOfRank_rankOfRatio_small {n : Nat} (small : n ≤ 2 ^ 53) :
    unitsOfRank (rankOfRatio n 1) = n * unitsPerOne :=
  unitsOfRank_rankOfRatio (spacing_dvd small ⟨1074, by decide +kernel⟩)

theorem rank_ofNat {n : Nat} (small : n ≤ 2 ^ 53) (negative : Bool) :
    (ofNat negative n).rank = rankOfRatio n 1 := by
  have largest : rankOfRatio (2 ^ 53) 1 ≤ rankLimit - 1 := by decide +kernel
  exact Nat.min_eq_left (Nat.le_trans (rankOfRatio_mono small 1) largest)

/-- Integers up to `2 ^ 53` are doubles. -/
theorem ofInt_inj {m n : Int} (small : m.natAbs ≤ 2 ^ 53) (small' : n.natAbs ≤ 2 ^ 53) :
    ofInt m = ofInt n ↔ m = n := by
  constructor
  · intro same
    have signs : decide (m < 0) = decide (n < 0) := congrArg negative same
    have ranks : rankOfRatio m.natAbs 1 = rankOfRatio n.natAbs 1 := by
      rw [← rank_ofNat small (m < 0), ← rank_ofNat small' (n < 0)]
      exact congrArg rank same
    have units : m.natAbs * unitsPerOne = n.natAbs * unitsPerOne := by
      rw [← unitsOfRank_rankOfRatio_small small, ← unitsOfRank_rankOfRatio_small small', ranks]
    have magnitudes : m.natAbs = n.natAbs := Nat.eq_of_mul_eq_mul_right unitsPerOne_pos units
    rw [decide_eq_decide] at signs
    omega
  · exact congrArg ofInt

theorem orderKey_ofNat_true (n : Nat) :
    (ofNat true n).orderKey = -(ofNat false n).orderKey - 1 := by
  have same : (ofNat true n).rank = (ofNat false n).rank := by
    unfold ofNat
    rfl
  have below : (ofNat true n).orderKey = -((ofNat true n).rank : Int) - 1 := if_pos rfl
  have above : (ofNat false n).orderKey = (ofNat false n).rank := if_neg Bool.false_ne_true
  rw [below, above, same]

theorem orderKey_ofNat_nonneg (n : Nat) : 0 ≤ (ofNat false n).orderKey := Int.natCast_nonneg _

/-- Rounding keeps the order of integers. -/
theorem orderKey_ofInt_mono {m n : Int} (le : m ≤ n) :
    (ofInt m).orderKey ≤ (ofInt n).orderKey := by
  unfold ofInt
  have nonneg := orderKey_ofNat_nonneg m.natAbs
  have nonneg' := orderKey_ofNat_nonneg n.natAbs
  by_cases below : m < 0
  · rw [decide_eq_true below, orderKey_ofNat_true]
    by_cases below' : n < 0
    · -- among negative integers the magnitudes are in the other order
      have magnitudes := orderKey_ofNat_mono (show n.natAbs ≤ m.natAbs by omega)
      rw [decide_eq_true below', orderKey_ofNat_true]
      omega
    · rw [decide_eq_false below']
      omega
  · rw [decide_eq_false below, decide_eq_false (by omega : ¬ n < 0)]
    exact orderKey_ofNat_mono (by omega)

end Double

/-! ## Integer indices -/

namespace Outcome

theorem placeKey_of_integer {outcomes : List Outcome} {number : Outcome → Int}
    (integers : ∀ outcome ∈ outcomes, outcome.index = some (.number (.integer (number outcome))))
    {entry : Outcome × Nat} (member : entry ∈ outcomes.zipIdx) :
    placeKey entry = (Double.ofInt (number entry.1)).orderKey := by
  rw [placeKey, value_place, integers entry.1 (List.fst_mem_of_mem_zipIdx member)]
  rfl

/-- An array of outcomes with integer indices is in the order of the integers as they are rounded to
doubles. It is in the order of the integers themselves exactly if no outcome is followed by one with
a smaller integer that rounds to the same double, and always if the integers are not larger than
`2 ^ 53`. -/
theorem toArray_of_integers (outcomes : List Outcome) (number : Outcome → Int)
    (integers : ∀ outcome ∈ outcomes, outcome.index = some (.number (.integer (number outcome)))) :
    ∃ placed : List (Outcome × Nat),
      (toArray outcomes).value = .array (placed.map fun entry => entry.1.output) ∧
      Arranges (fun entry => (Double.ofInt (number entry.1)).orderKey) outcomes placed ∧
      (Arranges (fun entry => number entry.1) outcomes placed ↔
        ∀ a ∈ outcomes.zipIdx, ∀ b ∈ outcomes.zipIdx, a.2 < b.2 → number b.1 < number a.1 →
          Double.ofInt (number a.1) ≠ Double.ofInt (number b.1)) ∧
      ((∀ outcome ∈ outcomes, (number outcome).natAbs ≤ 2 ^ 53) →
        Arranges (fun entry => number entry.1) outcomes placed) := by
  obtain ⟨placed, arranged, inOrder⟩ := exists_arrangement outcomes
  have rounded : Arranges (fun entry => (Double.ofInt (number entry.1)).orderKey) outcomes placed :=
    arranged.congr fun entry => placeKey_of_integer integers
  have exact_iff : Arranges (fun entry => number entry.1) outcomes placed ↔
      ∀ a ∈ outcomes.zipIdx, ∀ b ∈ outcomes.zipIdx, a.2 < b.2 → number b.1 < number a.1 →
        Double.ofInt (number a.1) ≠ Double.ofInt (number b.1) := by
    simp only [ne_eq, ← Double.orderKey_inj]
    exact rounded.refines_iff fun a _ b _ => Double.orderKey_ofInt_mono
  refine ⟨placed, ?_, rounded, exact_iff, fun small => exact_iff.mpr ?_⟩
  · rw [value_toArray, ← inOrder, List.map_map]
    rfl
  · intro a left b right _ smaller same
    have left := small a.1 (List.fst_mem_of_mem_zipIdx left)
    have right := small b.1 (List.fst_mem_of_mem_zipIdx right)
    rw [Double.ofInt_inj left right] at same
    omega

/-- Times far enough apart for their doubles to differ, and two equal ones before the epoch. -/
theorem toArray_of_integers_times :
    let outcome (n : Int) : Outcome := ⟨none, some (.number (.integer n)), [("t", .null)]⟩
    let outcomes : List Outcome := [outcome 1700000000000000256, outcome (-1),
      outcome 1700000000000000000, outcome (-1)]
    let number : Outcome → Int := fun outcome =>
      match outcome.index with
      | some (.number (.integer n)) => n
      | _ => 0
    ∃ placed : List (Outcome × Nat),
      (toArray outcomes).value = .array (placed.map fun entry => entry.1.output) ∧
      Arranges (fun entry => number entry.1) outcomes placed := by
  intro outcome outcomes number
  obtain ⟨placed, output, _, exact_iff, _⟩ :=
    toArray_of_integers outcomes number (by decide +kernel)
  exact ⟨placed, output, exact_iff.mpr (by decide +kernel)⟩

/-- The first integer that is no double rounds to the one before it, and the two are left as they
came. -/
theorem not_arranges_toArray_neighbours :
    let outcome (n : Int) : Outcome :=
      ⟨none, some (.number (.integer n)), [("n", .number (.integer n))]⟩
    let outcomes : List Outcome := [outcome 9007199254740993, outcome 9007199254740992]
    let number : Outcome → Int := fun outcome =>
      match outcome.index with
      | some (.number (.integer n)) => n
      | _ => 0
    (∀ outcome ∈ outcomes, outcome.index = some (.number (.integer (number outcome)))) ∧
      (toArray outcomes).value = .array [.object [("n", .number (.integer 9007199254740993))],
        .object [("n", .number (.integer 9007199254740992))]] ∧
      ¬ ∃ placed : List (Outcome × Nat),
        (toArray outcomes).value = .array (placed.map fun entry => entry.1.output) ∧
        Arranges (fun entry => number entry.1) outcomes placed := by
  intro outcome outcomes number
  have inOrder : (placeAll 0 outcomes).value.Pairwise fun a b =>
      decide (a.1.orderKey ≤ b.1.orderKey) = true := by decide +kernel
  have value : (toArray outcomes).value =
      .array [.object [("n", .number (.integer 9007199254740993))],
        .object [("n", .number (.integer 9007199254740992))]] := by
    rw [value_toArray, sorted, List.mergeSort_of_pairwise inOrder]
    decide +kernel
  refine ⟨by decide, value, ?_⟩
  rintro ⟨placed, output, arranged⟩
  rw [value] at output
  obtain ⟨a, others, rfl, first, output⟩ := List.map_eq_cons_iff.mp (Json.array.inj output).symm
  obtain ⟨b, _, rfl, second, _⟩ := List.map_eq_cons_iff.mp output
  have before := (List.pairwise_cons.mp arranged.inOrder).1 b List.mem_cons_self
  have left : a ∈ outcomes.zipIdx := arranged.perm.mem_iff.mp List.mem_cons_self
  have right : b ∈ outcomes.zipIdx :=
    arranged.perm.mem_iff.mp (List.mem_cons_of_mem _ List.mem_cons_self)
  have onlyLeft : ∀ entry ∈ outcomes.zipIdx,
      entry.1.output = .object [("n", .number (.integer 9007199254740993))] →
        number entry.1 = 9007199254740993 := by decide +kernel
  have onlyRight : ∀ entry ∈ outcomes.zipIdx,
      entry.1.output = .object [("n", .number (.integer 9007199254740992))] →
        number entry.1 = 9007199254740992 := by decide +kernel
  rw [Before, onlyLeft a left first, onlyRight b right second] at before
  omega

end Outcome

end Reshape
