import Mathlib.Data.List.Forall2
import Reshape.Error

/-!
# Related results

Two evaluations are compared by a relation on their results: `Related failures values` holds of two
failures with related errors and of two successes with related values, and of nothing else. The
relation goes through `bind` and through `mapM`, so that a comparison of two evaluators needs one
step for each construct of the rules.
-/

namespace Reshape

variable {α β γ δ : Type}

/-- Lists that are related one by one are sorted alike by keys that the relation respects. -/
theorem forall₂_mergeSort {related : α → β → Prop} {le : α → α → Bool} {le' : β → β → Bool}
    {lefts : List α} {rights : List β} (alike : List.Forall₂ related lefts rights)
    (respects : ∀ a b c d, related a c → related b d → le a b = le' c d) :
    List.Forall₂ related (lefts.mergeSort le) (rights.mergeSort le') := by
  -- both lists are projections of the list of pairs, which is sorted by its first components
  obtain ⟨pairs, known, rfl, rfl⟩ : ∃ pairs : List (α × β), (∀ p ∈ pairs, related p.1 p.2) ∧
      lefts = pairs.map Prod.fst ∧ rights = pairs.map Prod.snd := by
    induction alike with
    | nil => exact ⟨[], nofun, rfl, rfl⟩
    | @cons a b as bs first _ ih =>
      obtain ⟨pairs, known, rfl, rfl⟩ := ih
      exact ⟨(a, b) :: pairs, List.forall_mem_cons.mpr ⟨first, known⟩, rfl, rfl⟩
  have left := List.map_mergeSort (f := Prod.fst) (r := fun p q => le p.1 q.1) (s := le)
    (l := pairs) fun _ _ _ _ => rfl
  have right := List.map_mergeSort (f := Prod.snd) (r := fun p q => le p.1 q.1) (s := le')
    (l := pairs) fun p pMember q qMember =>
      respects _ _ _ _ (known p pMember) (known q qMember)
  rw [← left, ← right, List.forall₂_map_left_iff, List.forall₂_map_right_iff]
  exact List.forall₂_same.mpr fun p member => known p (List.mem_mergeSort.mp member)

/-- Lists that are the same one by one are the same. -/
theorem eq_and_forall_of_forall₂ {property : α → Prop} {lefts rights : List α}
    (alike : List.Forall₂ (fun x y => x = y ∧ property x) lefts rights) :
    lefts = rights ∧ ∀ x ∈ lefts, property x := by
  induction alike with
  | nil => exact ⟨rfl, nofun⟩
  | cons same _ ih => exact ⟨by rw [same.1, ih.1], List.forall_mem_cons.mpr ⟨same.2, ih.2⟩⟩

/-- A computation that succeeds in two steps succeeds in the first one. -/
theorem of_bind_eq_ok {first : Except Error α} {next : α → Except Error β} {result : β}
    (succeeds : first >>= next = .ok result) :
    ∃ value, first = .ok value ∧ next value = .ok result := by
  cases first with
  | ok value => exact ⟨value, rfl, succeeds⟩
  | error error => cases succeeds

/-- A list of computations that succeeds yields one value for each input. -/
theorem forall₂_of_mapM_eq_ok {next : α → Except Error β} {inputs : List α} {outputs : List β}
    (succeeds : inputs.mapM next = .ok outputs) :
    List.Forall₂ (fun input output => next input = .ok output) inputs outputs := by
  induction inputs generalizing outputs with
  | nil =>
    obtain rfl := Except.ok.inj succeeds
    exact .nil
  | cons input rest ih =>
    rw [List.mapM_cons] at succeeds
    obtain ⟨first, computed, succeeds⟩ := of_bind_eq_ok succeeds
    obtain ⟨others, later, same⟩ := of_bind_eq_ok succeeds
    obtain rfl := Except.ok.inj same
    exact .cons computed (ih later)

/-- A list of computations that only rebuild the values of others. -/
theorem mapM_of_bind {first : α → Except Error β} {second : α → Except Error γ} {build : β → γ}
    (same : ∀ input, second input = first input >>= fun value => .ok (build value))
    (inputs : List α) :
    inputs.mapM second = inputs.mapM first >>= fun values => .ok (values.map build) := by
  induction inputs with
  | nil => rfl
  | cons input rest ih =>
    rw [List.mapM_cons, List.mapM_cons, same, ih]
    cases first input with
    | error error => rfl
    | ok value =>
      cases rest.mapM first with
      | error error => rfl
      | ok values => rfl

/-- Both results are failures with related errors, or both are successes with related values. -/
inductive Related (failures : Error → Error → Prop) (values : α → β → Prop) :
    Except Error α → Except Error β → Prop where
  | ok {left : α} {right : β} :
    values left right → Related failures values (.ok left) (.ok right)
  | error {left right : Error} :
    failures left right → Related failures values (.error left) (.error right)

namespace Related

variable {failures : Error → Error → Prop} {values : α → β → Prop} {next : γ → δ → Prop}

/-- Related results followed by related computations are related. -/
theorem bind {left : Except Error α} {right : Except Error β}
    {leftNext : α → Except Error γ} {rightNext : β → Except Error δ}
    (first : Related failures values left right)
    (second : ∀ x y, values x y → Related failures next (leftNext x) (rightNext y)) :
    Related failures next (left >>= leftNext) (right >>= rightNext) := by
  cases first with
  | ok related => exact second _ _ related
  | error related => exact .error related

theorem map {left : Except Error α} {right : Except Error β} {f : α → γ} {g : β → δ}
    (related : Related failures values left right) (maps : ∀ x y, values x y → next (f x) (g y)) :
    Related failures next (left.map f) (right.map g) := by
  cases related with
  | ok related => exact .ok (maps _ _ related)
  | error related => exact .error related

/-- A result is related to itself by equality. -/
theorem rfl_eq (result : Except Error α) : Related Eq Eq result result := by
  cases result with
  | ok value => exact .ok rfl
  | error error => exact .error rfl

theorem mono {left : Except Error α} {right : Except Error β} {values' : α → β → Prop}
    (related : Related failures values left right) (weaker : ∀ x y, values x y → values' x y) :
    Related failures values' left right := by
  cases related with
  | ok related => exact .ok (weaker _ _ related)
  | error related => exact .error related

/-- What is known of the first value can be used as well. -/
theorem and_known {left : Except Error α} {right : Except Error β} {property : α → Prop}
    (related : Related failures values left right)
    (known : ∀ value, left = .ok value → property value) :
    Related failures (fun x y => values x y ∧ property x) left right := by
  cases related with
  | ok related => exact .ok ⟨related, known _ rfl⟩
  | error related => exact .error related

/-- Lists of computations that are related one by one yield lists that are. -/
theorem mapM {leftNext : γ → Except Error α} {rightNext : δ → Except Error β}
    {lefts : List γ} {rights : List δ}
    (inputs : List.Forall₂ (fun x y => Related failures values (leftNext x) (rightNext y))
      lefts rights) :
    Related failures (List.Forall₂ values) (lefts.mapM leftNext) (rights.mapM rightNext) := by
  induction inputs with
  | nil => exact .ok .nil
  | cons head _ ih =>
    rw [List.mapM_cons, List.mapM_cons]
    refine bind head fun x y related => ?_
    refine bind ih fun xs ys rest => ?_
    exact .ok (.cons related rest)

end Related

/-! ## Agreement -/

/-- Both results are the same, and a value that they have satisfies a property. -/
abbrev Agree (property : α → Prop) : Except Error α → Except Error α → Prop :=
  Related (fun e f => e = f) fun x y => x = y ∧ property x

namespace Agree

variable {property : α → Prop} {later : β → Prop} {left right : Except Error α}

theorem eq (agree : Agree property left right) : left = right := by
  cases agree with
  | ok same => rw [same.1]
  | error same => rw [same]

theorem known {value : α} (agree : Agree property left right) (succeeds : left = .ok value) :
    property value := by
  subst succeeds
  cases agree with
  | ok same => exact same.2

theorem of_ok {value : α} (holds : property value) :
    Agree property (.ok value) (.ok value) := .ok ⟨rfl, holds⟩

/-- A result agrees with itself on what is known of its value. -/
theorem refl (known : ∀ value, left = .ok value → property value) :
    Agree property left left := by
  cases left with
  | ok value => exact of_ok (known value rfl)
  | error error => exact .error rfl

theorem bind {leftNext rightNext : α → Except Error β} (first : Agree property left right)
    (second : ∀ value, property value → Agree later (leftNext value) (rightNext value)) :
    Agree later (left >>= leftNext) (right >>= rightNext) := by
  refine Related.bind first fun x y same => ?_
  rw [← same.1]
  exact second x same.2

/-- Lists of computations that agree one by one yield one list. -/
theorem mapM_of_forall₂ {leftNext : α → Except Error γ} {rightNext : β → Except Error γ}
    {property : γ → Prop} {lefts : List α} {rights : List β}
    (inputs : List.Forall₂ (fun x y => Agree property (leftNext x) (rightNext y)) lefts rights) :
    Agree (fun outputs => ∀ output ∈ outputs, property output) (lefts.mapM leftNext)
      (rights.mapM rightNext) := by
  exact (Related.mapM inputs).mono fun _ _ => eq_and_forall_of_forall₂

theorem mapM {leftNext rightNext : α → Except Error β} {inputs : List α}
    (agree : ∀ input ∈ inputs, Agree later (leftNext input) (rightNext input)) :
    Agree (fun outputs => ∀ output ∈ outputs, later output) (inputs.mapM leftNext)
      (inputs.mapM rightNext) :=
  mapM_of_forall₂ (List.forall₂_same.mpr agree)

end Agree

end Reshape
