import Reshape.Rule.Basic

/-!
# Parts of documents and rules

Documents and rules nest through lists of items, lists of entries and optional rules. The two
induction principles of this module go through these lists: in the case of an array, an object or a
repeating rule the statement is known of every part that is a member. `Json.Every` and `Rule.Every`
say that a property holds of a document or rule and of everything inside it.
-/

namespace Reshape

/-! ## Induction -/

/-- Induction over a document: what holds of all parts of an array or object holds of the whole. -/
@[elab_as_elim, induction_eliminator]
theorem Json.induct {motive : Json → Prop} (null : motive .null)
    (bool : ∀ value, motive (.bool value)) (number : ∀ value, motive (.number value))
    (string : ∀ text, motive (.string text))
    (array : ∀ items, (∀ item ∈ items, motive item) → motive (.array items))
    (object : ∀ entries, (∀ entry ∈ entries, motive entry.2) → motive (.object entries))
    (value : Json) : motive value :=
  @Json.rec motive (fun items => ∀ item ∈ items, motive item)
    (fun entries => ∀ entry ∈ entries, motive entry.2) (fun entry => motive entry.2)
    null bool number string array object
    nofun (fun _ _ first rest => List.forall_mem_cons.mpr ⟨first, rest⟩)
    nofun (fun _ _ first rest => List.forall_mem_cons.mpr ⟨first, rest⟩)
    (fun _ _ part => part) value

/-- Induction over a rule: what holds of all rules that a rule is made of holds of the rule. -/
@[elab_as_elim, induction_eliminator]
theorem Rule.induct {motive : Rule → Prop} (text : ∀ source, motive (.text source))
    (path : ∀ source, motive (.path source))
    (object : ∀ entries, (∀ entry ∈ entries, motive entry.2) → motive (.object entries))
    (each : ∀ source key index fields, (∀ rule ∈ key, motive rule) → (∀ rule ∈ index, motive rule) →
      (∀ field ∈ fields, motive field.2) → motive (.each source key index fields))
    (rule : Rule) : motive rule :=
  @Rule.rec motive (fun entries => ∀ entry ∈ entries, motive entry.2)
    (fun option => ∀ rule ∈ option, motive rule) (fun entry => motive entry.2)
    text path object each
    nofun (fun _ _ first rest => List.forall_mem_cons.mpr ⟨first, rest⟩)
    nofun (fun _ part _ same => Option.mem_some.mp same ▸ part)
    (fun _ _ part => part) rule

namespace Rule

/-- The rules that a rule is made of. -/
def parts : Rule → List Rule
  | .object entries => entries.map Prod.snd
  | .each _ key index fields => key.toList ++ index.toList ++ fields.map Prod.snd
  | _ => []

/-- Induction over a rule, all parts at once. -/
@[elab_as_elim]
theorem inductOnParts {motive : Rule → Prop}
    (step : ∀ rule, (∀ part ∈ rule.parts, motive part) → motive rule) (rule : Rule) :
    motive rule := by
  induction rule with
  | text source => exact step _ nofun
  | path source => exact step _ nofun
  | object entries ih => exact step _ (List.forall_mem_map.mpr ih)
  | each source key index fields keyIh indexIh fieldIh =>
    refine step _ fun part member => ?_
    rcases List.mem_append.mp member with member | field
    · rcases List.mem_append.mp member with key | index
      · exact keyIh part (Option.mem_toList.mp key)
      · exact indexIh part (Option.mem_toList.mp index)
    · exact List.forall_mem_map.mpr fieldIh part field

end Rule

/-! ## Properties of all parts -/

namespace Json

mutual

/-- A property holds of the value and of every value inside it. -/
def Every (here : Json → Prop) : Json → Prop
  | .null => here .null
  | .bool value => here (.bool value)
  | .number value => here (.number value)
  | .string text => here (.string text)
  | .array items => here (.array items) ∧ EveryItem here items
  | .object entries => here (.object entries) ∧ EveryEntry here entries

/-- The same of every item. -/
def EveryItem (here : Json → Prop) : List Json → Prop
  | [] => True
  | value :: rest => value.Every here ∧ EveryItem here rest

/-- The same of the value of every entry. -/
def EveryEntry (here : Json → Prop) : List (String × Json) → Prop
  | [] => True
  | (_, value) :: rest => value.Every here ∧ EveryEntry here rest

end

theorem everyEntry_iff {here : Json → Prop} {entries : List (String × Json)} :
    EveryEntry here entries ↔ ∀ entry ∈ entries, entry.2.Every here := by
  induction entries with
  | nil => simp [EveryEntry]
  | cons entry rest ih =>
    obtain ⟨key, value⟩ := entry
    rw [EveryEntry, ih, List.forall_mem_cons]

theorem every_object_iff {here : Json → Prop} {entries : List (String × Json)} :
    (Json.object entries).Every here ↔
      here (.object entries) ∧ ∀ entry ∈ entries, entry.2.Every here := by
  rw [Every, everyEntry_iff]

theorem everyItem_iff {here : Json → Prop} {items : List Json} :
    EveryItem here items ↔ ∀ item ∈ items, item.Every here := by
  induction items with
  | nil => simp [EveryItem]
  | cons item rest ih => rw [EveryItem, ih, List.forall_mem_cons]

theorem every_array_iff {here : Json → Prop} {items : List Json} :
    (Json.array items).Every here ↔ here (.array items) ∧ ∀ item ∈ items, item.Every here := by
  rw [Every, everyItem_iff]

theorem every_here {here : Json → Prop} {value : Json} (every : value.Every here) :
    here value := by
  cases value with
  | array items => exact (every_array_iff.mp every).1
  | object entries => exact (every_object_iff.mp every).1
  | null => exact every
  | bool value => exact every
  | number value => exact every
  | string text => exact every

/-- What holds of all parts of a value holds of all parts of its parts. -/
theorem every_every {here : Json → Prop} {value : Json} (every : value.Every here) :
    value.Every fun part => part.Every here := by
  induction value with
  | null => exact every
  | bool value => exact every
  | number value => exact every
  | string text => exact every
  | array items ih =>
    have parts := (every_array_iff.mp every).2
    exact every_array_iff.mpr ⟨every, fun item member => ih item member (parts item member)⟩
  | object entries ih =>
    have parts := (every_object_iff.mp every).2
    exact every_object_iff.mpr ⟨every, fun entry member => ih entry member (parts entry member)⟩

/-- The keys of an object. -/
def keys : Json → List String
  | .object entries => Entries.keys entries
  | _ => []

theorem every_nodup_keys {value : Json} (distinct : value.DistinctKeys) :
    value.Every fun node => node.keys.Nodup := by
  induction value with
  | null => exact List.nodup_nil
  | bool value => exact List.nodup_nil
  | number value => exact List.nodup_nil
  | string text => exact List.nodup_nil
  | array items ih =>
    have parts := distinctKeysItems_iff.mp distinct
    exact every_array_iff.mpr
      ⟨List.nodup_nil, fun item member => ih item member (parts item member)⟩
  | object entries ih =>
    have parts := distinctKeysEntries_iff.mp distinct.2
    exact every_object_iff.mpr
      ⟨distinct.1, fun entry member => ih entry member (parts entry member)⟩

end Json

namespace Rule

mutual

/-- A property holds of the rule and of every rule inside it. -/
def Every (here : Rule → Prop) : Rule → Prop
  | .text source => here (.text source)
  | .path source => here (.path source)
  | .object entries => here (.object entries) ∧ EveryEntry here entries
  | .each source key index fields =>
    here (.each source key index fields) ∧
      EveryOption here key ∧ EveryOption here index ∧ EveryEntry here fields

/-- The same of a rule that may be absent. -/
def EveryOption (here : Rule → Prop) : Option Rule → Prop
  | none => True
  | some rule => rule.Every here

/-- The same of the rule of every entry. -/
def EveryEntry (here : Rule → Prop) : List (String × Rule) → Prop
  | [] => True
  | (_, rule) :: rest => rule.Every here ∧ EveryEntry here rest

end

variable {here : Rule → Prop}

theorem everyOption_iff {rule : Option Rule} :
    EveryOption here rule ↔ ∀ r ∈ rule, r.Every here := by
  cases rule with
  | none => simp [EveryOption]
  | some rule => simp [EveryOption]

theorem everyEntry_iff {entries : List (String × Rule)} :
    EveryEntry here entries ↔ ∀ entry ∈ entries, entry.2.Every here := by
  induction entries with
  | nil => simp [EveryEntry]
  | cons entry rest ih =>
    obtain ⟨key, rule⟩ := entry
    rw [EveryEntry, ih, List.forall_mem_cons]

theorem every_object_iff {entries : List (String × Rule)} :
    (Rule.object entries).Every here ↔
      here (.object entries) ∧ ∀ entry ∈ entries, entry.2.Every here := by
  rw [Every, everyEntry_iff]

theorem every_each_iff {source : Path} {key index : Option Rule} {fields : List (String × Rule)} :
    (Rule.each source key index fields).Every here ↔
      here (.each source key index fields) ∧ (∀ r ∈ key, r.Every here) ∧
        (∀ r ∈ index, r.Every here) ∧ ∀ field ∈ fields, field.2.Every here := by
  rw [Every, everyOption_iff, everyOption_iff, everyEntry_iff]

/-- A property holds of everything in a rule if it holds of the rule and of everything in its
parts. -/
theorem every_iff_parts {rule : Rule} :
    rule.Every here ↔ here rule ∧ ∀ part ∈ rule.parts, part.Every here := by
  cases rule with
  | text source => exact (and_iff_left nofun).symm
  | path source => exact (and_iff_left nofun).symm
  | object entries => rw [every_object_iff, parts, List.forall_mem_map]
  | each source key index fields =>
    rw [every_each_iff, parts, List.forall_mem_append, List.forall_mem_append, List.forall_mem_map,
      and_assoc]
    simp only [Option.mem_toList]
    rfl

theorem every_of_forall (holds : ∀ node, here node) (rule : Rule) : rule.Every here := by
  induction rule using inductOnParts with
  | step rule ih => exact every_iff_parts.mpr ⟨holds rule, ih⟩

theorem Every.and {there : Rule → Prop} {rule : Rule} (first : rule.Every here)
    (second : rule.Every there) : rule.Every fun node => here node ∧ there node := by
  induction rule using inductOnParts with
  | step rule ih =>
    obtain ⟨here, parts⟩ := every_iff_parts.mp first
    obtain ⟨there, others⟩ := every_iff_parts.mp second
    exact every_iff_parts.mpr ⟨⟨here, there⟩, fun part member =>
      ih part member (parts part member) (others part member)⟩

/-- The keys that a rule writes its entries or fields under. -/
def keys : Rule → List String
  | .object entries => Entries.keys entries
  | .each _ _ _ fields => Entries.keys fields
  | _ => []

/-- No key of an object of rules and no field of a repeating rule refers to a variable. -/
def PlainKeys (rule : Rule) : Prop :=
  rule.Every fun node => ∀ key ∈ node.keys, isReference key = false

end Rule

end Reshape
