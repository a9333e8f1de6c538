import Mathlib.Data.Nat.Log
import Reshape.Proofs.Related
import Reshape.Proofs.Results

/-!
# Places of outcomes

Outcomes are sorted by their places, and what else they are made of does not matter: outcomes that
are related one by one and have the same places are sorted alike (`Outcome.forall₂_sorted`).

An outcome whose index asks for no place takes its position among the outcomes as its place, rounded
to a double (`Outcome.value_place_eq`). Rounding never turns the order around
(`Double.rankOfRatio_mono`), so outcomes of which none asks for a place are already sorted, however
many there are, and the stable sort leaves them as they are (`Outcome.sorted_of_unplaced`).
-/

namespace Reshape

/-! ## Rounding keeps the order -/

theorem div_le_roundQuotient (numerator denominator : Nat) :
    numerator / denominator ≤ roundQuotient numerator denominator := by
  unfold roundQuotient
  dsimp only
  split <;> omega

theorem roundQuotient_le (numerator denominator : Nat) :
    roundQuotient numerator denominator ≤ numerator / denominator + 1 := by
  unfold roundQuotient
  dsimp only
  split <;> omega

theorem roundQuotient_mono {numerator larger : Nat} (le : numerator ≤ larger) (denominator : Nat) :
    roundQuotient numerator denominator ≤ roundQuotient larger denominator := by
  have quotients := Nat.div_le_div_right (c := denominator) le
  rcases Nat.lt_or_eq_of_le quotients with less | same
  · have above := roundQuotient_le numerator denominator
    have below := div_le_roundQuotient larger denominator
    omega
  · -- with one quotient, the remainders decide, and they are in order too
    have split := Nat.div_add_mod numerator denominator
    have splitLarger := Nat.div_add_mod larger denominator
    rw [← same] at splitLarger
    have remainders : numerator % denominator ≤ larger % denominator := by omega
    unfold roundQuotient
    dsimp only
    rw [← same]
    split_ifs <;> omega

namespace Double

/-- The shift of a magnitude is chosen so that what it leaves of the magnitude fits into two
binades. -/
theorem shifted_lt (units : Nat) : units / Nat.pow 2 (units.log2 - 52) < 2 * binade := by
  have below : units < 2 ^ (units.log2 + 1) := Nat.lt_log2_self
  refine Nat.div_lt_of_lt_mul (Nat.lt_of_lt_of_le below ?_)
  change 2 ^ (units.log2 + 1) ≤ 2 ^ (units.log2 - 52) * 2 ^ 53
  rw [← Nat.pow_add]
  exact Nat.pow_le_pow_right (by decide) (by omega)

/-- What a shift leaves of a magnitude does not fall into the binade below. -/
theorem binade_le_shifted {units : Nat} (shifted : units.log2 - 52 ≠ 0) :
    binade ≤ units / Nat.pow 2 (units.log2 - 52) := by
  have positive : units ≠ 0 := by
    rintro rfl
    exact shifted rfl
  have above : 2 ^ units.log2 ≤ units := Nat.log2_self_le positive
  refine (Nat.le_div_iff_mul_le (Nat.two_pow_pos _)).mpr (Nat.le_trans ?_ above)
  change 2 ^ 52 * 2 ^ (units.log2 - 52) ≤ 2 ^ units.log2
  rw [← Nat.pow_add]
  exact Nat.pow_le_pow_right (by decide) (by omega)

/-- A larger quotient does not get a smaller rank. -/
theorem rankOfRatio_mono {numerator larger : Nat} (le : numerator ≤ larger) (denominator : Nat) :
    rankOfRatio numerator denominator ≤ rankOfRatio larger denominator := by
  have scaled : numerator * unitsPerOne ≤ larger * unitsPerOne := Nat.mul_le_mul_right _ le
  have units := Nat.div_le_div_right (c := denominator) scaled
  have shifts : (numerator * unitsPerOne / denominator).log2 ≤
      (larger * unitsPerOne / denominator).log2 := by
    rw [Nat.log2_eq_log_two, Nat.log2_eq_log_two]
    exact Nat.log_mono_right units
  unfold rankOfRatio
  dsimp only
  generalize numerator * unitsPerOne = scaledNumerator at *
  generalize larger * unitsPerOne = scaledLarger at *
  rcases Nat.lt_or_eq_of_le (Nat.sub_le_sub_right shifts 52) with less | same
  · -- a binade apart, the rounded quotients cannot make up for the shifts
    have upper := roundQuotient_le scaledNumerator
      (denominator * Nat.pow 2 ((scaledNumerator / denominator).log2 - 52))
    have lower := div_le_roundQuotient scaledLarger
      (denominator * Nat.pow 2 ((scaledLarger / denominator).log2 - 52))
    rw [← Nat.div_div_eq_div_mul] at upper lower
    have small := shifted_lt (scaledNumerator / denominator)
    have large : binade ≤ scaledLarger / denominator /
        Nat.pow 2 ((scaledLarger / denominator).log2 - 52) := binade_le_shifted (by omega)
    have spaced := Nat.mul_le_mul_right binade less
    rw [Nat.succ_mul] at spaced
    omega
  · rw [same]
    exact Nat.add_le_add_left (roundQuotient_mono scaled _) _

theorem orderKey_ofNat_mono {m n : Nat} (le : m ≤ n) :
    (ofNat false m).orderKey ≤ (ofNat false n).orderKey := by
  have ranks := rankOfRatio_mono le 1
  change ((min (rankOfRatio m 1) (rankLimit - 1) : Nat) : Int) ≤
    (min (rankOfRatio n 1) (rankLimit - 1) : Nat)
  omega

end Double

namespace Outcome

/-- The number that an index stands for: a number, or a text that spells one. -/
def asked? : Option Json → Option Double
  | some (.number value) => some value.toDouble
  | some (.string text) => Double.ofText? text
  | _ => none

/-- An outcome takes the place that its index asks for, or else its position. -/
theorem value_place_eq (index : Option Json) (position : Nat) :
    (place index position).value = (asked? index).getD (Double.ofNat false position) := by
  rw [value_place]
  cases index with
  | none => rfl
  | some value => cases value <;> rfl

theorem mem_placeAll {position : Nat} {outcomes : List Outcome}
    (unplaced : ∀ outcome ∈ outcomes, asked? outcome.index = none) :
    ∀ placed ∈ (placeAll position outcomes).value,
      ∃ later, position ≤ later ∧ placed.1 = Double.ofNat false later := by
  induction outcomes generalizing position with
  | nil => nofun
  | cons outcome rest ih =>
    obtain ⟨first, unplaced⟩ := List.forall_mem_cons.mp unplaced
    rw [value_placeAll_cons, value_place_eq, first]
    refine List.forall_mem_cons.mpr ⟨⟨position, le_refl _, rfl⟩, fun placed member => ?_⟩
    obtain ⟨later, after, place⟩ := ih unplaced placed member
    exact ⟨later, by omega, place⟩

theorem pairwise_placeAll {outcomes : List Outcome}
    (unplaced : ∀ outcome ∈ outcomes, asked? outcome.index = none) (position : Nat) :
    (placeAll position outcomes).value.Pairwise fun a b => a.1.orderKey ≤ b.1.orderKey := by
  induction outcomes generalizing position with
  | nil => exact .nil
  | cons outcome rest ih =>
    obtain ⟨first, unplaced⟩ := List.forall_mem_cons.mp unplaced
    rw [value_placeAll_cons, value_place_eq, first]
    refine .cons (fun placed member => ?_) (ih unplaced _)
    obtain ⟨later, after, place⟩ := mem_placeAll unplaced placed member
    rw [place]
    exact Double.orderKey_ofNat_mono (by omega)

/-- Outcomes whose index asks for no place stay in the order of the items. -/
theorem sorted_of_unplaced {outcomes : List Outcome}
    (unplaced : ∀ outcome ∈ outcomes, asked? outcome.index = none) : sorted outcomes = outcomes := by
  have inOrder : (placeAll 0 outcomes).value.Pairwise fun a b =>
      decide (a.1.orderKey ≤ b.1.orderKey) = true :=
    (pairwise_placeAll unplaced 0).imp decide_eq_true
  rw [sorted, List.mergeSort_of_pairwise inOrder, map_snd_value_placeAll]

/-! ## Related outcomes -/

section Related

variable {related : Outcome → Outcome → Prop} {outcomes others : List Outcome}

theorem forall₂_placeAll
    (places : ∀ x y, related x y → ∀ position,
      (place x.index position).value = (place y.index position).value)
    (alike : List.Forall₂ related outcomes others) (position : Nat) :
    List.Forall₂ (fun x y => x.1 = y.1 ∧ related x.2 y.2)
      (placeAll position outcomes).value (placeAll position others).value := by
  induction alike generalizing position with
  | nil => exact .nil
  | cons first _ ih =>
    rw [value_placeAll_cons, value_placeAll_cons]
    exact .cons ⟨places _ _ first position, first⟩ (ih (position + 1))

/-- Outcomes that are related one by one and have the same places are sorted alike. -/
theorem forall₂_sorted
    (places : ∀ x y, related x y → ∀ position,
      (place x.index position).value = (place y.index position).value)
    (alike : List.Forall₂ related outcomes others) :
    List.Forall₂ related (sorted outcomes) (sorted others) := by
  unfold sorted
  rw [List.forall₂_map_left_iff, List.forall₂_map_right_iff]
  refine (forall₂_mergeSort (forall₂_placeAll places alike 0) fun a b c d first second => ?_).imp
    fun x y same => same.2
  rw [first.1, second.1]

end Related

end Outcome

end Reshape
