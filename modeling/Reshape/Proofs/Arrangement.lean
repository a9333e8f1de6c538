import Mathlib.Data.List.Pairwise
import Reshape.Proofs.Places

/-!
# The order of an array

Where outcomes stand in an array is told by `Outcome.Arranges`: each outcome stands there once, with
its position among the items, a smaller key stands in front of a larger one, and outcomes of one key
stay in the order of the items.

* `Outcome.exists_arrangement`: an array is arranged by the places of its outcomes.
* `Outcome.Arranges.refines_iff`: what is arranged by coarse keys is arranged by finer ones exactly
  if nowhere the positions alone decide against the finer keys.
-/

namespace Reshape

/-! ## The order of an array -/

namespace Outcome

/-- The outcome of a smaller key stands in front, of one key the one with the smaller position. -/
def Before (key : Outcome × Nat → Int) (a b : Outcome × Nat) : Prop :=
  key a < key b ∨ (key a = key b ∧ a.2 < b.2)

/-- Each outcome stands once in the list, with its position, and the list is in the order of the
keys. -/
structure Arranges (key : Outcome × Nat → Int) (outcomes : List Outcome)
    (placed : List (Outcome × Nat)) : Prop where
  perm : placed.Perm outcomes.zipIdx
  inOrder : placed.Pairwise (Before key)

/-- The key of the place that an outcome has at a position. -/
def placeKey (entry : Outcome × Nat) : Int := (place entry.1.index entry.2).value.orderKey

section Arranges

variable {key fine coarse : Outcome × Nat → Int} {outcomes : List Outcome}
  {placed : List (Outcome × Nat)}

theorem Arranges.congr (same : ∀ entry ∈ outcomes.zipIdx, fine entry = coarse entry)
    (arranged : Arranges fine outcomes placed) : Arranges coarse outcomes placed := by
  refine ⟨arranged.perm, arranged.inOrder.imp_of_mem fun {a b} left right before => ?_⟩
  rw [Before, ← same a (arranged.perm.mem_iff.mp left), ← same b (arranged.perm.mem_iff.mp right)]
  exact before

/-- A list that is in the order of coarser keys is in the order of the finer ones exactly if no two
entries are put in the other order by their positions alone. -/
theorem Arranges.refines_iff
    (mono : ∀ a ∈ outcomes.zipIdx, ∀ b ∈ outcomes.zipIdx, fine a ≤ fine b → coarse a ≤ coarse b)
    (arranged : Arranges coarse outcomes placed) :
    Arranges fine outcomes placed ↔ ∀ a ∈ outcomes.zipIdx, ∀ b ∈ outcomes.zipIdx,
      a.2 < b.2 → fine b < fine a → coarse a ≠ coarse b := by
  constructor
  · intro refined a left b right
    have both := refined.inOrder.and arranged.inOrder
    refine List.Pairwise.forall_of_forall_of_flip (l := placed)
      (R := fun a b => a.2 < b.2 → fine b < fine a → coarse a ≠ coarse b) ?_ ?_ ?_
      (arranged.perm.mem_iff.mpr left) (arranged.perm.mem_iff.mpr right)
    · intro entry _ self
      omega
    · refine both.imp fun before positions smaller => ?_
      unfold Before at before
      omega
    · refine both.imp fun before positions smaller => ?_
      unfold Before at before
      omega
  · intro apart
    refine ⟨arranged.perm, arranged.inOrder.imp_of_mem fun {a b} left right before => ?_⟩
    have left := arranged.perm.mem_iff.mp left
    have right := arranged.perm.mem_iff.mp right
    have back := mono b right a left
    have tie := apart a left b right
    unfold Before at before ⊢
    omega

/-- Outcomes with their positions have different positions, in whatever order they are. -/
theorem pairwise_positions (perm : placed.Perm outcomes.zipIdx) :
    placed.Pairwise fun a b => a.2 ≠ b.2 := by
  refine List.pairwise_map.mp ((perm.map Prod.snd).nodup_iff.mpr ?_)
  rw [List.zipIdx_map_snd]
  exact List.nodup_range'

end Arranges

/-! ## The sort by places -/

/-- The order of the places, and in one place that of the positions. -/
def notAfter (a b : Outcome × Nat) : Bool :=
  placeKey a < placeKey b ∨ (placeKey a = placeKey b ∧ a.2 ≤ b.2)

theorem notAfter_iff {a b : Outcome × Nat} :
    notAfter a b = true ↔ placeKey a < placeKey b ∨ (placeKey a = placeKey b ∧ a.2 ≤ b.2) :=
  decide_eq_true_iff

theorem notAfter_trans (a b c : Outcome × Nat) (first : notAfter a b = true)
    (second : notAfter b c = true) : notAfter a c = true := by
  rw [notAfter_iff] at first second ⊢
  omega

theorem notAfter_total (a b : Outcome × Nat) : (notAfter a b || notAfter b a) = true := by
  rw [Bool.or_eq_true, notAfter_iff, notAfter_iff]
  omega

theorem zipIdx_placeAll (position : Nat) (outcomes : List Outcome) :
    (placeAll position outcomes).value.zipIdx position =
      (outcomes.zipIdx position).map fun entry =>
        (((place entry.1.index entry.2).value, entry.1), entry.2) := by
  induction outcomes generalizing position with
  | nil => rfl
  | cons outcome rest ih =>
    rw [value_placeAll_cons, List.zipIdx_cons, List.zipIdx_cons, List.map_cons, ih]

/-- The sort by places is stable, so it is the sort by places and positions. -/
theorem sorted_eq_map_mergeSort (outcomes : List Outcome) :
    sorted outcomes = (outcomes.zipIdx.mergeSort notAfter).map Prod.fst := by
  have stable : ((placeAll 0 outcomes).value.zipIdx.mergeSort
      (List.zipIdxLE fun a b => a.1.orderKey ≤ b.1.orderKey)).map Prod.fst =
      (placeAll 0 outcomes).value.mergeSort fun a b => a.1.orderKey ≤ b.1.orderKey :=
    List.mergeSort_zipIdx
  rw [sorted, ← stable, zipIdx_placeAll, ← List.map_mergeSort (r := notAfter), List.map_map,
    List.map_map]
  · rfl
  · intro a _ b _
    rw [Bool.eq_iff_iff, notAfter_iff]
    unfold List.zipIdxLE placeKey
    simp only [decide_eq_true_eq]
    split_ifs <;> simp only [decide_eq_true_eq, iff_true, iff_false] <;> omega

/-- An array is in the order of the places of its outcomes. -/
theorem exists_arrangement (outcomes : List Outcome) :
    ∃ placed, Arranges placeKey outcomes placed ∧ placed.map Prod.fst = sorted outcomes := by
  have perm := List.mergeSort_perm outcomes.zipIdx notAfter
  have inOrder := List.pairwise_mergeSort notAfter_trans notAfter_total outcomes.zipIdx
  refine ⟨outcomes.zipIdx.mergeSort notAfter, ⟨perm, ?_⟩, (sorted_eq_map_mergeSort outcomes).symm⟩
  refine inOrder.imp₂ (fun a b before apart => ?_) (pairwise_positions perm)
  rw [notAfter_iff] at before
  unfold Before
  omega

end Outcome

end Reshape
