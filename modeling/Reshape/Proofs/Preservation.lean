import Reshape.Proofs.Family
import Reshape.Proofs.Parts
import Reshape.Proofs.Related

/-!
# What evaluation keeps

The values that evaluation meets stay in a family of documents. `Family.Within` says that a context
is in it: its documents are, and so are the values bound in its environment.

* `Family.holdsItem_of_items`: the items of a path belong to the family.
* `Family.holds_subst`: whatever a value was before, after a substitution it belongs to the family,
  if the values bound in the environment do.
* `Family.holds_collect`: outcomes are collected into a value of the family.
* `Json.Settled.value_subst`: a settled value is left alone by every substitution.
-/

namespace Reshape

namespace Json.Family

variable {family : Family}

/-! ## Environments, items and contexts -/

/-- The values bound in the environment belong to the family. -/
def HoldsEnv (family : Family) (env : Env) : Prop :=
  ∀ name, ∀ value ∈ env.get? name, family.Holds value

theorem holdsEnv_empty : family.HoldsEnv .empty := nofun

theorem HoldsEnv.bind {env : Env} {value : Json} (bound : family.HoldsEnv env) (name : String)
    (holds : family.Holds value) : family.HoldsEnv (env.bind name value) := by
  intro other found member
  rw [Env.get?_bind] at member
  split at member
  · cases member
    exact holds
  · exact bound other found member

/-- The documents of a context and the values bound in it belong to the family. -/
structure Within (family : Family) (context : Context) : Prop where
  root : family.Holds context.root
  current : family.Holds context.current
  env : family.HoldsEnv context.env

/-- An item belongs to the family, and so do the values bound with it. -/
structure HoldsItem (family : Family) (item : Item) : Prop where
  value : family.Holds item.value
  env : family.HoldsEnv item.env

theorem Within.enter {context : Context} {item : Item} (within : family.Within context)
    (holds : family.HoldsItem item) : family.Within (context.enter item) :=
  ⟨within.root, holds.value, holds.env⟩

theorem holdsItem_of_itemsOf {env : Env} {value : Option Json} (bound : family.HoldsEnv env)
    (holds : ∀ v ∈ value, family.Holds v) : ∀ item ∈ env.itemsOf value, family.HoldsItem item := by
  intro item member
  obtain ⟨part, inside, rfl⟩ := List.mem_map.mp member
  exact ⟨family.holds_parts holds part inside, bound⟩

/-- The items of a path belong to the family of the document that they are listed from. -/
theorem holdsItem_of_items {path : Path} {root : Json} {env : Env} {items : List Item}
    (holds : family.Holds root) (bound : family.HoldsEnv env)
    (listed : Eval.result (path.items root env) = .ok items) :
    ∀ item ∈ items, family.HoldsItem item := by
  rw [Path.result_items] at listed
  split at listed
  · cases listed
    exact holdsItem_of_itemsOf bound (family.holds_follow holds _)
  · cases listed
    intro item member
    rw [Path.value_itemsAlong] at member
    obtain ⟨candidate, candidates, member⟩ := List.mem_flatMap.mp member
    have value := family.holds_candidates (family.holds_follow holds _) candidate candidates
    exact holdsItem_of_itemsOf (bound.bind _ value) (family.holds_follow holds _) item member
  · cases listed

/-! ## Substitution -/

section Subst

variable {env : Env} {missing : Missing}

theorem holds_substText (bound : family.HoldsEnv env) (text : String) :
    ∀ value ∈ (env.substText text).value, family.Holds value := by
  intro value member
  rw [Env.value_substText] at member
  split at member
  · exact bound text value member
  · next plain =>
    cases member
    exact family.string_iff.mpr (family.admits_of_plain (Bool.eq_false_iff.mpr plain))

theorem admits_substKey (bound : family.HoldsEnv env) (key : String) :
    ∀ substituted ∈ (env.substKey key).value, family.Admits substituted := by
  intro substituted member
  rw [Env.value_substKey] at member
  split at member
  · obtain ⟨value, found, rfl⟩ := Option.map_eq_some_iff.mp member
    exact family.admits_asKey (bound key value found)
  · next plain =>
    cases member
    exact family.admits_of_plain (Bool.eq_false_iff.mpr plain)

theorem fields_substEntries (bound : family.HoldsEnv env) {entries : List (String × Json)}
    (parts : ∀ entry ∈ entries, ∀ result ∈ (env.subst missing entry.2).value, family.Holds result)
    {written : Entries Json} (fields : family.Fields written) :
    family.Fields (env.substEntries missing written entries).value := by
  induction entries generalizing written with
  | nil =>
    rw [Env.value_substEntries_nil]
    exact fields
  | cons entry rest ih =>
    obtain ⟨key, value⟩ := entry
    obtain ⟨first, rest⟩ := List.forall_mem_cons.mp parts
    rw [Env.value_substEntries_cons]
    cases substituted : (env.substKey key).value with
    | none => exact ih rest fields
    | some key' => exact ih rest (fields.put (admits_substKey bound key key' substituted) first)

/-- Substitution leads into the family from anywhere. -/
theorem holds_subst (bound : family.HoldsEnv env) (value : Json) :
    ∀ result ∈ (env.subst missing value).value, family.Holds result := by
  induction value with
  | null =>
    rintro result ⟨rfl⟩
    exact family.null
  | bool value =>
    rintro result ⟨rfl⟩
    exact family.bool value
  | number value =>
    rintro result ⟨rfl⟩
    exact family.number value
  | string text => exact holds_substText bound text
  | array items ih =>
    rw [Env.value_subst_array]
    rintro result ⟨rfl⟩
    refine family.array_iff.mpr fun value member => ?_
    obtain ⟨item, inside, rfl⟩ := List.mem_map.mp member
    exact family.holds_orNull (ih item inside)
  | object entries ih =>
    rw [Env.value_subst_object]
    rintro result ⟨rfl⟩
    exact (fields_substEntries bound ih (Fields.nil family)).holds

theorem holds_substOption (bound : family.HoldsEnv env) (value : Option Json) :
    ∀ result ∈ (env.substOption missing value).value, family.Holds result := by
  rw [Env.value_substOption]
  intro result member
  obtain ⟨value, _, member⟩ := Option.bind_eq_some_iff.mp member
  exact holds_subst bound value result member

end Subst

/-! ## Outcomes -/

/-- The parts of an outcome belong to the family. -/
structure HoldsOutcome (family : Family) (outcome : Outcome) : Prop where
  key : ∀ value ∈ outcome.key, family.Holds value
  fields : family.Fields outcome.fields

theorem HoldsOutcome.output {outcome : Outcome} (holds : family.HoldsOutcome outcome) :
    family.Holds outcome.output := (holds.fields.filter _).holds

theorem fields_putAll {outcomes : List Outcome}
    (holds : ∀ outcome ∈ outcomes, family.HoldsOutcome outcome) {written : Entries Json}
    (fields : family.Fields written) : family.Fields (Outcome.putAll written outcomes).value := by
  induction outcomes generalizing written with
  | nil => exact fields
  | cons outcome rest ih =>
    obtain ⟨first, rest⟩ := List.forall_mem_cons.mp holds
    rw [Outcome.value_putAll_cons]
    cases found : outcome.key with
    | none => exact ih rest fields
    | some key =>
      exact ih rest (fields.insert (family.admits_asKey (first.key key found)) first.output)

/-- Outcomes of the family are collected into a value of the family. -/
theorem holds_collect (keyed : Bool) {outcomes : List Outcome}
    (holds : ∀ outcome ∈ outcomes, family.HoldsOutcome outcome) :
    family.Holds (Outcome.collect keyed outcomes) := by
  cases keyed with
  | true => exact (fields_putAll holds (Fields.nil family)).holds
  | false =>
    change family.Holds (Outcome.toArray outcomes).value
    rw [Outcome.value_toArray]
    refine family.array_iff.mpr fun value member => ?_
    obtain ⟨outcome, inside, rfl⟩ := List.mem_map.mp member
    exact (holds outcome ((Outcome.perm_sorted outcomes).mem_iff.mp inside)).output

/-! ## Entries of rules -/

/-- Evaluated entries have keys that rules were written under, and values of the family. -/
theorem mem_of_evalEntries {missing : Missing} {context : Context} {rules : List (String × Rule)}
    (bound : family.HoldsEnv context.env) {written fields : Entries Json}
    (distinct : (Entries.keys written).Nodup)
    (evaluated : Eval.result (Rule.evalEntries missing rules context written) = .ok fields) :
    (Entries.keys fields).Nodup ∧ ∀ field ∈ fields,
      field ∈ written ∨ field.1 ∈ Entries.keys rules ∧ family.Holds field.2 := by
  induction rules generalizing written with
  | nil =>
    rw [Rule.result_evalEntries_nil] at evaluated
    cases evaluated
    exact ⟨distinct, fun field member => Or.inl member⟩
  | cons entry rest ih =>
    obtain ⟨key, rule⟩ := entry
    rw [Rule.result_evalEntries_cons] at evaluated
    obtain ⟨value, _, evaluated⟩ := of_bind_eq_ok evaluated
    have holds : ∀ v ∈ (context.env.substOption missing value).value, family.Holds v :=
      holds_substOption bound value
    generalize (context.env.substOption missing value).value = value at evaluated holds
    rcases missing.value_put_cases written key value with ⟨inserted, found, put⟩ | put
    · rw [put] at evaluated
      have insertedHolds : family.Holds inserted := by
        rw [← Missing.orNull_of_written? found]
        exact family.holds_orNull holds
      have ⟨nodup, known⟩ := ih (Entries.nodup_keys_insert distinct key inserted) evaluated
      refine ⟨nodup, fun field member => ?_⟩
      rcases known field member with old | ⟨later, holds⟩
      · rcases Entries.mem_of_mem_insert old with rfl | old
        · exact Or.inr ⟨List.mem_cons_self, insertedHolds⟩
        · exact Or.inl old
      · exact Or.inr ⟨List.mem_cons_of_mem _ later, holds⟩
    · rw [put] at evaluated
      have ⟨nodup, known⟩ := ih distinct evaluated
      refine ⟨nodup, fun field member => ?_⟩
      rcases known field member with old | ⟨later, holds⟩
      · exact Or.inl old
      · exact Or.inr ⟨List.mem_cons_of_mem _ later, holds⟩

end Json.Family

/-! ## Settled values -/

namespace Env

/-- Entries under the keys that substitution makes of theirs, without those that it drops. -/
def rekey (env : Env) (entries : List (String × Json)) : List (String × Json) :=
  entries.filterMap fun entry => (env.substKey entry.1).value.map fun key => (key, entry.2)

variable {env : Env} {missing : Missing}

theorem rekey_of_plain {entries : List (String × Json)}
    (plain : ∀ entry ∈ entries, isReference entry.1 = false) : env.rekey entries = entries := by
  induction entries with
  | nil => rfl
  | cons entry rest ih =>
    obtain ⟨first, plain⟩ := List.forall_mem_cons.mp plain
    rw [rekey, List.filterMap_cons, value_substKey, if_neg (Bool.eq_false_iff.mp first)]
    exact congrArg (entry :: ·) (ih plain)

/-- Where substitution leaves all values alone, it writes them one after another. -/
theorem value_substEntries_of_parts {entries : List (String × Json)}
    (parts : ∀ entry ∈ entries, (env.subst missing entry.2).value = some entry.2)
    (written : Entries Json) :
    (env.substEntries missing written entries).value =
      Entries.insertAll written (env.rekey entries) := by
  induction entries generalizing written with
  | nil => rw [value_substEntries_nil, rekey, List.filterMap_nil, Entries.insertAll, List.foldl_nil]
  | cons entry rest ih =>
    obtain ⟨key, value⟩ := entry
    obtain ⟨first, restParts⟩ := List.forall_mem_cons.mp parts
    rw [value_substEntries_cons, rekey, List.filterMap_cons]
    cases (env.substKey key).value with
    | none => exact ih restParts written
    | some key =>
      dsimp only [Option.map_some]
      rw [first, Missing.value_put_some, Entries.insertAll_cons]
      exact ih restParts _

end Env

namespace Json

variable {env : Env} {missing : Missing}

/-- A settled value is left alone by substitution. -/
theorem Settled.value_subst {value : Json} (settled : value.Settled) :
    (env.subst missing value).value = some value := by
  induction value with
  | null => rfl
  | bool value => rfl
  | number value => rfl
  | string text =>
    change (env.substText text).value = some (.string text)
    rw [Env.value_substText, if_neg settled.free]
  | array items ih =>
    have parts : items.map (fun item => orNull (env.subst missing item).value) = items := by
      refine List.map_congr_left (fun item member => ?_) |>.trans (List.map_id items)
      rw [ih item member (settled_array_iff.mp settled item member)]
      rfl
    rw [Env.value_subst_array, parts]
  | object entries ih =>
    obtain ⟨distinct, parts⟩ := settled_object_iff.mp settled
    have written : Entries.insertAll [] entries = [] ++ entries :=
      Entries.insertAll_of_nodup_keys distinct
    rw [Env.value_subst_object,
      Env.value_substEntries_of_parts fun entry member => ih entry member (parts entry member).2,
      Env.rekey_of_plain fun entry member => (parts entry member).1, written]
    rfl

theorem Settled.value_substOption {value : Option Json} (settled : ∀ v ∈ value, v.Settled) :
    (env.substOption missing value).value = value := by
  rw [Env.value_substOption]
  cases value with
  | none => rfl
  | some value => exact (settled value rfl).value_subst

end Json

end Reshape
