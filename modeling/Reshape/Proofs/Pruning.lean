import Reshape.Proofs.Places
import Reshape.Proofs.Reading
import Reshape.Proofs.SinglePass

/-!
# What is left out when missing values are omitted

A missing value is either written as `null` or left out of the object, and nothing else depends on
the setting. `Json.Prunes` relates the two outputs: scalars are equal, arrays are related position
by position, and an object of the second output is an object of the first without some of the
entries whose value is `null` there.

The comparison is made in a single pass, where the setting is asked for at one place only, the
writing of the pairs of an object (`Entries.Pruned.of_putAll`). It goes through the places of
outcomes, the stable sort and the collection under keys (`OutcomePruned.collect`), and with these
the single passes under both settings are in lockstep (`Rule.pruning`). The keys of outcomes must be
evaluated by texts or paths: the text of an object that is used as a key tells whether an entry was
left out.
-/

namespace Reshape

/-! ## Pruned values -/

/-- The second list of entries is the first without some entries of value `null`, and the values
that are left are related. -/
inductive Entries.Pruned (related : Json → Json → Prop) : Entries Json → Entries Json → Prop where
  | nil : Pruned related [] []
  | keep {key : String} {full pruned : Json} {fulls pruneds : Entries Json} :
    related full pruned → Pruned related fulls pruneds →
    Pruned related ((key, full) :: fulls) ((key, pruned) :: pruneds)
  | drop {key : String} {fulls pruneds : Entries Json} :
    Pruned related fulls pruneds → Pruned related ((key, .null) :: fulls) pruneds

/-- The second value is the first without some entries of value `null` in its objects. -/
inductive Json.Prunes : Json → Json → Prop where
  | null : Prunes .null .null
  | bool (value : Bool) : Prunes (.bool value) (.bool value)
  | number (value : Number) : Prunes (.number value) (.number value)
  | string (text : String) : Prunes (.string text) (.string text)
  | array {full pruned : List Json} :
    List.Forall₂ Prunes full pruned → Prunes (.array full) (.array pruned)
  | object {full pruned : List (String × Json)} :
    Entries.Pruned Prunes full pruned → Prunes (.object full) (.object pruned)

namespace Entries.Pruned

variable {related : Json → Json → Prop} {full pruned : Entries Json}

theorem append {fulls pruneds : Entries Json} (first : Pruned related full pruned)
    (second : Pruned related fulls pruneds) :
    Pruned related (full ++ fulls) (pruned ++ pruneds) := by
  induction first with
  | nil => exact second
  | keep same _ ih => exact .keep same ih
  | drop _ ih => exact .drop ih

theorem keys_sublist (less : Pruned related full pruned) :
    (keys pruned).Sublist (keys full) := by
  induction less with
  | nil => exact .refl _
  | keep _ _ ih => exact ih.cons_cons _
  | drop _ ih => exact ih.cons _

theorem filter (less : Pruned related full pruned) (kept : String → Bool) :
    Pruned related (full.filter fun entry => kept entry.1)
      (pruned.filter fun entry => kept entry.1) := by
  induction less with
  | nil => exact .nil
  | @keep key _ _ _ _ same _ ih =>
    rw [List.filter_cons, List.filter_cons]
    cases kept key with
    | true => exact .keep same ih
    | false => exact ih
  | @drop key _ _ _ ih =>
    rw [List.filter_cons]
    cases kept key with
    | true => exact .drop ih
    | false => exact ih

/-- Entries that are related one by one are a pruning that leaves nothing out. -/
theorem of_forall₂
    (alike : List.Forall₂ (fun x y : String × Json => x.1 = y.1 ∧ related x.2 y.2) full pruned) :
    Pruned related full pruned := by
  induction alike with
  | nil => exact .nil
  | @cons x y _ _ same _ ih =>
    obtain ⟨key, value⟩ := x
    obtain ⟨_, value'⟩ := y
    obtain ⟨rfl, same⟩ := same
    exact .keep same ih

/-- Pairs that are related one by one come to this, where all of them count and where those without
a value do not. -/
theorem of_pairs {pairs others : List (String × Option Json)}
    (alike : List.Forall₂ (fun pair other : String × Option Json =>
      other.1 = pair.1 ∧ Option.Rel related pair.2 other.2) pairs others) :
    Pruned related (Missing.asNull.effective pairs) (Missing.omitted.effective others) := by
  induction alike with
  | nil => exact .nil
  | @cons pair other _ _ same _ ih =>
    obtain ⟨key, value⟩ := pair
    obtain ⟨_, value'⟩ := other
    obtain ⟨rfl, same⟩ := same
    cases same with
    | some same => exact .keep same ih
    | none => exact .drop ih

/-- The same of the objects that are written, if no key is repeated. -/
theorem of_putAll {pairs others : List (String × Option Json)}
    (distinct : (pairs.map Prod.fst).Nodup)
    (alike : List.Forall₂ (fun pair other : String × Option Json =>
      other.1 = pair.1 ∧ Option.Rel related pair.2 other.2) pairs others) :
    Pruned related (Missing.asNull.putAll [] pairs).value
      (Missing.omitted.putAll [] others).value := by
  have less := of_pairs alike
  have keys : Entries.keys (Missing.asNull.effective pairs) = pairs.map Prod.fst :=
    List.map_map ..
  have nodup : (Entries.keys ([] ++ Missing.asNull.effective pairs)).Nodup := keys ▸ distinct
  have fewer : (Entries.keys ([] ++ Missing.omitted.effective others)).Nodup :=
    less.keys_sublist.nodup nodup
  rw [Missing.value_putAll, Missing.value_putAll, insertAll_of_nodup_keys nodup,
    insertAll_of_nodup_keys fewer]
  exact less

end Entries.Pruned

namespace Json

theorem Prunes.refl (value : Json) : value.Prunes value := by
  induction value with
  | null => exact .null
  | bool value => exact .bool value
  | number value => exact .number value
  | string text => exact .string text
  | array items ih => exact .array (List.forall₂_same.mpr ih)
  | object entries ih =>
    refine .object (.of_forall₂ (List.forall₂_same.mpr fun entry member => ?_))
    exact ⟨rfl, ih entry member⟩

theorem Prunes.refl_option (value : Option Json) : Option.Rel Prunes value value := by
  cases value with
  | none => exact .none
  | some value => exact .some (.refl value)

end Json

/-! ## Outcomes -/

/-- Two outcomes of one item: the keys are the same, and the rest is pruned. -/
structure OutcomePruned (full pruned : Outcome) : Prop where
  key : full.key = pruned.key
  index : Option.Rel Json.Prunes full.index pruned.index
  fields : Entries.Pruned Json.Prunes full.fields pruned.fields

namespace OutcomePruned

theorem output {full pruned : Outcome} (less : OutcomePruned full pruned) :
    full.output.Prunes pruned.output :=
  .object (less.fields.filter fun key => !isReserved key)

/-- No place depends on what is left out of an index. -/
theorem place {full pruned : Option Json} (less : Option.Rel Json.Prunes full pruned)
    (position : Nat) :
    (Outcome.place full position).value = (Outcome.place pruned position).value := by
  rw [Outcome.value_place, Outcome.value_place]
  cases less with
  | none => rfl
  | some same =>
    cases same with
    | null => rfl
    | bool value => rfl
    | number value => rfl
    | string text => rfl
    | array items => rfl
    | object entries => rfl

theorem toArray {fulls pruneds : List Outcome} (less : List.Forall₂ OutcomePruned fulls pruneds) :
    (Outcome.toArray fulls).value.Prunes (Outcome.toArray pruneds).value := by
  have sorted := Outcome.forall₂_sorted (fun _ _ less => place less.index) less
  rw [Outcome.value_toArray, Outcome.value_toArray]
  refine .array (List.forall₂_map_left_iff.mpr (List.forall₂_map_right_iff.mpr ?_))
  exact sorted.imp fun _ _ less => less.output

/-- Entries of one key with related values. -/
abbrev EntryAlike (x y : String × Json) : Prop := x.1 = y.1 ∧ x.2.Prunes y.2

theorem insert {fulls pruneds : Entries Json} (alike : List.Forall₂ EntryAlike fulls pruneds)
    (key : String) {full pruned : Json} (same : full.Prunes pruned) :
    List.Forall₂ EntryAlike (Entries.insert fulls key full)
      (Entries.insert pruneds key pruned) := by
  induction alike with
  | nil => exact .cons ⟨rfl, same⟩ .nil
  | @cons x y _ _ first rest ih =>
    obtain ⟨k, value⟩ := x
    obtain ⟨_, value'⟩ := y
    obtain ⟨rfl, first⟩ := first
    by_cases eq : k = key
    · rw [Entries.insert, if_pos eq, Entries.insert, if_pos eq]
      exact .cons ⟨rfl, same⟩ rest
    · rw [Entries.insert, if_neg eq, Entries.insert, if_neg eq]
      exact .cons ⟨rfl, first⟩ ih

theorem putAll {fulls pruneds : List Outcome} (less : List.Forall₂ OutcomePruned fulls pruneds)
    {written written' : Entries Json} (alike : List.Forall₂ EntryAlike written written') :
    List.Forall₂ EntryAlike (Outcome.putAll written fulls).value
      (Outcome.putAll written' pruneds).value := by
  induction less generalizing written written' with
  | nil => exact alike
  | @cons full pruned _ _ first _ ih =>
    rw [Outcome.value_putAll_cons, Outcome.value_putAll_cons, first.key]
    cases pruned.key with
    | none => exact ih alike
    | some key => exact ih (insert alike key.asKey first.output)

/-- Outcomes are collected in the same order under the same keys. -/
theorem collect (keyed : Bool) {fulls pruneds : List Outcome}
    (less : List.Forall₂ OutcomePruned fulls pruneds) :
    (Outcome.collect keyed fulls).Prunes (Outcome.collect keyed pruneds) := by
  cases keyed with
  | true => exact .object (.of_forall₂ (putAll less .nil))
  | false => exact toArray less

end OutcomePruned

/-! ## Rules -/

namespace Rule

/-- A rule that is not made of other rules. -/
def IsLeaf : Rule → Prop
  | .text _ | .path _ => True
  | .object _ | .each .. => False

/-- The keys of outcomes are evaluated by a text or a path. -/
def LeafKey : Rule → Prop
  | .each _ key _ _ => ∀ rule ∈ key, rule.IsLeaf
  | _ => True

theorem evalOnce_eq_of_isLeaf {rule : Rule} (leaf : rule.IsLeaf) (missing missing' : Missing)
    (context : Context) : evalOnce missing rule context = evalOnce missing' rule context := by
  cases rule with
  | text source => rfl
  | path source => rfl
  | object entries => cases leaf
  | each source key index fields => cases leaf

/-- The single pass under both settings. What it comes to differs by entries left out, but for the
keys of outcomes, which are the same. -/
def pruning : Lockstep (.once .asNull) (.once .omitted) where
  map := .id
  here node := node.keys.Nodup ∧ node.LeafKey
  contexts := Eq
  failures := Eq
  values := Option.Rel Json.Prunes
  parts := Option.Rel Json.Prunes
  keys := Eq
  objects := Entries.Pruned Json.Prunes
  text {source context _} _ same := by
    subst same
    exact .ok (Json.Prunes.refl_option _)
  path {source context _} _ same := by
    subst same
    exact .ok (Json.Prunes.refl_option _)
  items {source _ _ _ context _} _ same := by
    subst same
    refine Related.mono (Related.rfl_eq _) fun items items' same => ?_
    rw [← same, List.forall₂_same]
    exact fun item _ => rfl
  settle _ same := same
  key {source rule _ _ context _} here same _ := by
    subst same
    have leaf : rule.IsLeaf := here.2 rule rfl
    change Related Eq Eq (evalOnce .asNull rule context >>= pure)
      (evalOnce .omitted rule context >>= pure)
    rw [evalOnce_eq_of_isLeaf leaf .asNull .omitted]
    exact Related.rfl_eq _
  no_key := rfl
  no_part := .none
  write here own alike := .of_putAll (own ▸ here.1) alike
  object less := .some (.object less)
  collect keyed _ _ alike := .some (OutcomePruned.collect keyed
    (alike.imp fun _ _ alike => ⟨alike.key, alike.index, alike.fields⟩))

/-- The setting for missing values prunes what is written for entries, and changes nothing else. -/
theorem prunes_evalEntriesOnce {entries : List (String × Rule)}
    (every : (Rule.object entries).Every fun node => node.keys.Nodup ∧ node.LeafKey)
    (context : Context) :
    Related Eq (Entries.Pruned Json.Prunes) (evalEntriesOnce .asNull entries context [])
      (evalEntriesOnce .omitted entries context []) := by
  have less : Related Eq (Entries.Pruned Json.Prunes)
      (objectOf .asNull ((Run.once .asNull).part context) entries)
      (objectOf .omitted ((Run.once .omitted).part context)
        (entries.map (Prod.map Map.id.key Map.id.rule))) :=
    pruning.related_objectOf_of_every every rfl
  rw [Map.entries_id] at less
  rw [evalEntriesOnce_eq, evalEntriesOnce_eq]
  exact less

end Rule

/-! ## Transformations -/

/-- In a repeating rule every entry that is evaluated to the keys of outcomes is a string. -/
def Json.TextKey : Json → Prop
  | .object entries => eachEntry ∈ Entries.keys entries →
    ∀ value, (keyEntry, value) ∈ entries → ∃ text, value = .string text
  | _ => True

namespace Rule

variable {limit depth : Nat}

theorem RuleOf.leafKey {value : Json} {rule : Rule} (texts : value.TextKey)
    (read : RuleOf limit depth value rule) : rule.LeafKey := by
  cases read with
  | text _ => trivial
  | path _ => trivial
  | object _ => trivial
  | each found _ body =>
    intro r same
    have repeating := Entries.mem_keys_iff.mpr ⟨_, Entries.mem_of_get?_eq_some found⟩
    obtain ⟨value, member, read⟩ := body.key r same
    obtain ⟨text, rfl⟩ := texts repeating value member
    cases ruleOf_of_ofJsonAt read with
    | text _ => trivial
    | path _ => trivial

/-- What a rule must satisfy to be compared under both settings. -/
structure Comparable (rule : Rule) : Prop where
  plain : rule.PlainKeys
  pruned : rule.Every fun node => node.keys.Nodup ∧ node.LeafKey

end Rule

/-- No key of an object refers to a variable. -/
def Json.PlainKeys (value : Json) : Prop :=
  ∀ key ∈ value.keys, isReserved key = false → isReference key = false

theorem Json.PlainKeys.isReference_eq_false {value : Json} (plain : value.PlainKeys) {key : String}
    (member : key ∈ value.keys) : isReference key = false := by
  cases reserved : isReserved key with
  | false => exact plain key member reserved
  | true => exact isReference_eq_false_of_isReserved reserved

theorem Rule.comparable_of_ofJson {limit depth : Nat} {value : Json} {rule : Rule}
    (distinct : value.DistinctKeys) (plain : value.Every Json.PlainKeys)
    (texts : value.Every Json.TextKey)
    (read : Eval.result (ofJsonAt limit depth value) = .ok rule) : rule.Comparable := by
  have nodup : rule.Every fun node => node.keys.Nodup :=
    every_of_ofJson (fun nodup read => nodup.sublist read.keys_sublist)
      (Json.every_nodup_keys distinct) read
  have leaf : rule.Every LeafKey :=
    every_of_ofJson (fun texts read => read.leafKey texts) texts read
  refine ⟨every_of_ofJson (fun plain read key member => ?_) plain read, nodup.and leaf⟩
  exact plain.isReference_eq_false (read.keys_sublist.subset member)

/-- The rules of an output document, read as the rule of an object. -/
theorem RuleSet.comparable_of_ofJson {limit : Nat} {entries : List (String × Json)}
    {rules : RuleSet} (distinct : (Json.object entries).DistinctKeys)
    (plain : (Json.object entries).Every Json.PlainKeys)
    (texts : ∀ entry ∈ entries, entry.2.Every Json.TextKey)
    (read : Eval.result (RuleSet.ofJson limit (.object entries)) = .ok rules) :
    (Rule.object rules.entries).Comparable := by
  obtain ⟨plainKeys, plainParts⟩ := Json.every_object_iff.mp plain
  have distinctParts := Json.distinctKeysEntries_iff.mp distinct.2
  rw [Rule.result_ofJson_ruleSet] at read
  obtain ⟨written, readEntries, same⟩ := of_bind_eq_ok read
  cases same
  have related := Rule.entryOf_of_ofJsonEntries readEntries
  have keys : (Rule.object written).keys = (Json.object entries).keys :=
    Rule.keys_of_entryOf related
  have parts : ∀ entry ∈ written, entry.2.Comparable := by
    intro entry member
    obtain ⟨source, origin, _, read⟩ := Rule.mem_of_entryOf related member
    exact Rule.comparable_of_ofJson (distinctParts source origin) (plainParts source origin)
      (texts source origin) read
  have plainHere : ∀ key ∈ (Rule.object written).keys, isReference key = false :=
    fun key member => plainKeys.isReference_eq_false (keys ▸ member)
  have distinctHere : (Rule.object written).keys.Nodup := keys ▸ distinct.1
  exact ⟨Rule.every_object_iff.mpr ⟨plainHere, fun entry member => (parts entry member).plain⟩,
    Rule.every_object_iff.mpr ⟨⟨distinctHere, trivial⟩, fun entry member =>
      (parts entry member).pruned⟩⟩

namespace Reshaper

/-- The same reshaper with another setting for missing values. -/
def withMissing (reshaper : Reshaper) (missing : Missing) : Reshaper :=
  ⟨{ reshaper.config with missing }, reshaper.valid⟩

theorem prunes_apply (reshaper : Reshaper) {rules : RuleSet}
    (comparable : (Rule.object rules.entries).Comparable) {input : Json}
    (settled : input.Settled) :
    Related Eq Json.Prunes (Eval.result ((reshaper.withMissing .asNull).apply rules input))
      (Eval.result ((reshaper.withMissing .omitted).apply rules input)) := by
  have within : Json.settled.Within (.ofDocument input .empty) :=
    ⟨settled, settled, Json.Family.holdsEnv_empty⟩
  have once : ∀ missing, Eval.result (Rule.evalEntries missing rules.entries
      (.ofDocument input .empty) []) =
        Rule.evalEntriesOnce missing rules.entries (.ofDocument input .empty) [] :=
    fun missing => Rule.result_evalEntries_eq_evalEntriesOnce comparable.plain within
  rw [result_apply, result_apply, once, once]
  exact Related.bind (Rule.prunes_evalEntriesOnce comparable.pruned _) fun _ _ less =>
    .ok (.object less)

/-- What a reshaper that writes `null` for missing values comes to is pruned, and changed in no
other way, by omitting them. -/
theorem prunes_transform (reshaper : Reshaper) {input : Json} {rules : List (String × Json)}
    (free : input.ReferenceFree) (distinct : input.DistinctKeys)
    (rulesDistinct : (Json.object rules).DistinctKeys)
    (plain : (Json.object rules).Every Json.PlainKeys)
    (texts : ∀ entry ∈ rules, entry.2.Every Json.TextKey) :
    Related Eq Json.Prunes
      (Eval.result ((reshaper.withMissing .asNull).transform input (.object rules)))
      (Eval.result ((reshaper.withMissing .omitted).transform input (.object rules))) := by
  have reads : ∀ missing, Eval.result ((reshaper.withMissing missing).readRules (.object rules)) =
      Eval.result (RuleSet.ofJson reshaper.config.maxDepth (.object rules)) := fun _ => rfl
  have known : ∀ read, Eval.result (RuleSet.ofJson reshaper.config.maxDepth (.object rules)) =
      .ok read → (Rule.object read.entries).Comparable := fun read =>
    RuleSet.comparable_of_ofJson rulesDistinct plain texts
  rw [result_transform, result_transform, reads, reads]
  refine Related.bind (Agree.refl known) fun read read' same => ?_
  rw [← same.1]
  exact prunes_apply reshaper same.2 ⟨free, distinct⟩

/-- Rows with a cell that leads nowhere, placed by an index that is an object in places. -/
theorem prunes_transform_rows :
    Related Eq Json.Prunes
      (Eval.result (((default : Reshaper).withMissing .asNull).transform
        (.object [("rows", .array [.object [("a", .ofNat 1)], .null])])
        (.object [("none", .string "$.nowhere"),
          ("cells", .object [("$each", .string "$.rows"),
            ("$index", .object [("at", .string "$.a")]), ("cell", .string "$.a")])])))
      (Eval.result (((default : Reshaper).withMissing .omitted).transform
        (.object [("rows", .array [.object [("a", .ofNat 1)], .null])])
        (.object [("none", .string "$.nowhere"),
          ("cells", .object [("$each", .string "$.rows"),
            ("$index", .object [("at", .string "$.a")]), ("cell", .string "$.a")])]))) := by
  refine prunes_transform _ ?_ ?_ ?_ ?_ ?_
  · simp only [Json.ReferenceFree, Json.Avoids, Json.AvoidsEntries, Json.AvoidsItems, Json.ofNat,
      and_true]
    decide
  · simp [Json.DistinctKeys, Json.DistinctKeysEntries, Json.DistinctKeysItems, Json.ofNat]
  · simp [Json.DistinctKeys, Json.DistinctKeysEntries]
  · simp only [Json.Every, Json.EveryEntry, Json.PlainKeys, Json.keys]
    decide
  · simp [Json.Every, Json.EveryEntry, Json.TextKey, eachEntry, keyEntry]

end Reshaper

end Reshape
