import Reshape.Proofs.Results
import Reshape.Proofs.Writes

/-!
# Outcomes under keys

Outcomes that are collected into an object are written one after another under the texts of their
keys (`Outcome.value_putAll`), so that the object has an entry for each text: in the order in which
the texts come up first, with the last outcome that has the text. An outcome without a key is
reported and has no entry (`Outcome.log_putAll`). `Outcome.toObject_last_of_each_key` draws up the
account: an outcome makes an entry, or gives way to a later one, or is reported.
-/

namespace Reshape

namespace Outcome

/-- The text that an outcome stands under. -/
def keyText? (outcome : Outcome) : Option String := outcome.key.map Json.asKey

/-- The pair that an outcome is written as. -/
def pair? (outcome : Outcome) : Option (String × Json) :=
  outcome.keyText?.map fun text => (text, outcome.output)

/-- Outcomes that give way to a later one under the same text. -/
def replaced : List Outcome → List Outcome
  | [] => []
  | outcome :: rest =>
    if outcome.keyText?.isSome ∧ outcome.keyText? ∈ rest.map keyText? then
      outcome :: replaced rest
    else replaced rest

/-! ## What is written -/

/-- Outcomes are written one after another, those without a key left out. -/
theorem value_putAll (written : Entries Json) (outcomes : List Outcome) :
    (putAll written outcomes).value = Entries.insertAll written (outcomes.filterMap pair?) := by
  induction outcomes generalizing written with
  | nil => rfl
  | cons outcome rest ih =>
    rw [value_putAll_cons, List.filterMap_cons, pair?, keyText?]
    cases outcome.key with
    | none => exact ih written
    | some key => exact ih (Entries.insert written key.asKey outcome.output)

theorem value_toObject (outcomes : List Outcome) :
    (toObject outcomes).value =
      .object (Entries.insertAll [] (outcomes.filterMap pair?)) :=
  congrArg Json.object (value_putAll [] outcomes)

theorem keys_filterMap_pair? (outcomes : List Outcome) :
    Entries.keys (outcomes.filterMap pair?) = outcomes.filterMap keyText? := by
  have first : ∀ outcome : Outcome, outcome.pair?.map Prod.fst = outcome.keyText? := by
    intro outcome
    rw [pair?, Option.map_map]
    exact Option.map_id_apply
  rw [Entries.keys, List.map_filterMap]
  exact List.filterMap_congr fun outcome _ => first outcome

/-- The entry found under a text is that of the first outcome with this text. -/
theorem get?_filterMap_pair? (outcomes : List Outcome) (text : String) :
    Entries.get? (outcomes.filterMap pair?) text =
      (outcomes.find? fun outcome => outcome.keyText? = some text).map output := by
  induction outcomes with
  | nil => rfl
  | cons outcome rest ih =>
    rw [List.filterMap_cons, List.find?_cons, pair?]
    cases outcome.keyText? with
    | none => exact ih
    | some own =>
      change Entries.get? ((own, outcome.output) :: rest.filterMap pair?) text = _
      by_cases same : own = text
      · rw [Entries.get?, if_pos same, decide_eq_true (congrArg some same)]
        rfl
      · rw [Entries.get?, if_neg same, ih, decide_eq_false (same ∘ Option.some.inj)]

/-! ## What is reported -/

/-- Every outcome without a key is reported, and nothing else. -/
theorem log_putAll (written : Entries Json) (outcomes : List Outcome) :
    (putAll written outcomes).log =
      List.replicate (outcomes.countP fun outcome => outcome.key.isNone) .keyMissing := by
  induction outcomes generalizing written with
  | nil => rfl
  | cons outcome rest ih =>
    rw [putAll, List.countP_cons]
    cases outcome.key with
    | none => exact congrArg (Event.keyMissing :: ·) (ih written)
    | some key => exact ih (Entries.insert written key.asKey outcome.output)

theorem log_toObject (outcomes : List Outcome) :
    (toObject outcomes).log =
      List.replicate (outcomes.countP fun outcome => outcome.key.isNone) .keyMissing :=
  (List.append_nil _).trans (log_putAll [] outcomes)

/-! ## The account -/

/-- An outcome makes an entry, gives way to a later one or has no key. -/
theorem length_eq_of_keyText? (outcomes : List Outcome) :
    outcomes.length = (outcomes.filterMap keyText?).dedup.length + (replaced outcomes).length +
      outcomes.countP fun outcome => outcome.key.isNone := by
  induction outcomes with
  | nil => rfl
  | cons outcome rest ih =>
    rw [List.length_cons, replaced, List.countP_cons, List.filterMap_cons, ih]
    cases found : outcome.key with
    | none =>
      rw [keyText?, found]
      simp only [Option.map_none, Option.isSome_none, Bool.false_eq_true, false_and, if_false,
        Option.isNone_none, if_true]
      omega
    | some key =>
      have text : outcome.keyText? = some key.asKey := congrArg (Option.map Json.asKey) found
      have later : some key.asKey ∈ rest.map keyText? ↔
          key.asKey ∈ rest.filterMap keyText? := by
        rw [List.mem_map, List.mem_filterMap]
      rw [text]
      simp only [Option.isSome_some, true_and, later, Option.isNone_some, Bool.false_eq_true,
        if_false]
      by_cases again : key.asKey ∈ rest.filterMap keyText?
      · rw [if_pos again, List.dedup_cons_of_mem again, List.length_cons]
        omega
      · rw [if_neg again, List.dedup_cons_of_notMem again, List.length_cons]
        omega

/-- Outcomes are collected into an object under the texts of their keys, in the order in which the
texts come up first, and under each text stands the last outcome that has it, as the object of its
fields whose keys are not reserved. For each outcome without a key there is one warning. So an
outcome has an entry of its own, or gives way to a later one of the same text, or is warned of. -/
theorem toObject_last_of_each_key (outcomes : List Outcome) :
    (∀ outcome : Outcome,
      outcome.output = .object (outcome.fields.filter fun field => !isReserved field.1)) ∧
    ∃ entries : Entries Json,
      (toObject outcomes).value = .object entries ∧
      Entries.keys entries = (outcomes.filterMap keyText?).eraseDups ∧
      (∀ text, Entries.get? entries text =
        (outcomes.filter fun outcome => outcome.keyText? = some text).getLast?.map output) ∧
      ((toObject outcomes).log.map fun event => (event.level, event.message)) =
        List.replicate (outcomes.countP fun outcome => outcome.key.isNone)
          (.warn, "skipping repeated item whose $key did not resolve") ∧
      outcomes.length =
        entries.length + (replaced outcomes).length + (toObject outcomes).log.length := by
  refine ⟨fun outcome => rfl, _, value_toObject outcomes, ?_, fun text => ?_, ?_, ?_⟩
  · rw [Entries.keys_insertAll_nil, keys_filterMap_pair?]
  · rw [Entries.get?_insertAll, Entries.get?_nil, Option.or_none, ← List.filterMap_reverse,
      get?_filterMap_pair?, List.getLast?_filter]
  · rw [log_toObject, List.map_replicate]
    rfl
  · rw [Entries.length_insertAll_nil, keys_filterMap_pair?, log_toObject, List.length_replicate]
    exact length_eq_of_keyText? outcomes

/-- The number `7` and the text `7` are one key. -/
example : (toObject [⟨some (.ofNat 7), none, [("v", .null)]⟩, ⟨none, none, []⟩,
    ⟨some (.string "7"), none, [("v", .bool true), ("$w", .null)]⟩]).value =
      .object [("7", .object [("v", .bool true)])] := by
  decide +kernel

end Outcome

end Reshape
