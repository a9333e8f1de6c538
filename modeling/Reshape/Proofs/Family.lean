import Reshape.Proofs.KeyText
import Reshape.Proofs.Parts
import Reshape.Proofs.Results

/-!
# Families of documents

Several properties of documents are kept by everything that evaluation does with documents: no
variable reference occurs in them, some given variables do not, no object repeats a key. A
`Json.Family` is such a property, given by the texts that it admits as strings and keys and by the
values that hold it, and it must go from objects and arrays to their parts and back.

* `Json.avoiding`, `Json.settled` and `Json.anything` are the families in use.
* `Family.holds_follow`, `Family.holds_parts` and `Family.holds_candidates` go down a document, and
  `Family.Fields` is what holds of the entries of an object while it is built.
-/

namespace Reshape

namespace Json

/-! ## Texts that do not occur -/

mutual

/-- No string and no key anywhere in the value is banned. -/
def Avoids (banned : String → Prop) : Json → Prop
  | .string text => ¬ banned text
  | .array items => AvoidsItems banned items
  | .object entries => AvoidsEntries banned entries
  | _ => True

/-- The same of every item. -/
def AvoidsItems (banned : String → Prop) : List Json → Prop
  | [] => True
  | value :: rest => value.Avoids banned ∧ AvoidsItems banned rest

/-- The same of every entry, the key included. -/
def AvoidsEntries (banned : String → Prop) : List (String × Json) → Prop
  | [] => True
  | (key, value) :: rest => ¬ banned key ∧ value.Avoids banned ∧ AvoidsEntries banned rest

end

/-- No string and no key anywhere in the value refers to a variable. -/
def ReferenceFree (value : Json) : Prop := value.Avoids fun text => isReference text = true

section Avoids

mutual

/-- Whether a value avoids texts is decided part by part. -/
def decAvoids (banned : String → Prop) [DecidablePred banned] :
    (value : Json) → Decidable (value.Avoids banned)
  | .string text => inferInstanceAs (Decidable (¬ banned text))
  | .array items => decAvoidsItems banned items
  | .object entries => decAvoidsEntries banned entries
  | .null | .bool _ | .number _ => isTrue trivial

/-- The same for the items of an array. -/
def decAvoidsItems (banned : String → Prop) [DecidablePred banned] :
    (items : List Json) → Decidable (AvoidsItems banned items)
  | [] => isTrue trivial
  | value :: rest =>
    @instDecidableAnd _ _ (decAvoids banned value) (decAvoidsItems banned rest)

/-- The same for the entries of an object. -/
def decAvoidsEntries (banned : String → Prop) [DecidablePred banned] :
    (entries : List (String × Json)) → Decidable (AvoidsEntries banned entries)
  | [] => isTrue trivial
  | (_, value) :: rest =>
    @instDecidableAnd _ _ inferInstance
      (@instDecidableAnd _ _ (decAvoids banned value) (decAvoidsEntries banned rest))

end

instance (banned : String → Prop) [DecidablePred banned] (value : Json) :
    Decidable (value.Avoids banned) := decAvoids banned value

instance (value : Json) : Decidable value.ReferenceFree := decAvoids _ value

variable {banned : String → Prop}

theorem avoids_array_iff {items : List Json} :
    (Json.array items).Avoids banned ↔ ∀ value ∈ items, value.Avoids banned := by
  rw [Avoids]
  induction items with
  | nil => simp [AvoidsItems]
  | cons value rest ih => rw [AvoidsItems, ih, List.forall_mem_cons]

theorem avoids_object_iff {entries : List (String × Json)} :
    (Json.object entries).Avoids banned ↔
      ∀ entry ∈ entries, ¬ banned entry.1 ∧ entry.2.Avoids banned := by
  rw [Avoids]
  induction entries with
  | nil => simp [AvoidsEntries]
  | cons entry rest ih =>
    obtain ⟨key, value⟩ := entry
    rw [AvoidsEntries, ih, List.forall_mem_cons, and_assoc]

/-- Fewer texts are avoided as well. -/
theorem Avoids.mono {fewer : String → Prop} (fewer_le : ∀ text, fewer text → banned text)
    {value : Json} (avoids : value.Avoids banned) : value.Avoids fewer := by
  induction value with
  | null => trivial
  | bool value => trivial
  | number value => trivial
  | string text => exact fun inside => avoids (fewer_le text inside)
  | array items ih =>
    have parts := avoids_array_iff.mp avoids
    exact avoids_array_iff.mpr fun item member => ih item member (parts item member)
  | object entries ih =>
    have parts := avoids_object_iff.mp avoids
    refine avoids_object_iff.mpr fun entry member => ?_
    obtain ⟨key, value⟩ := parts entry member
    exact ⟨fun inside => key (fewer_le _ inside), ih entry member value⟩

end Avoids

/-! ## Families -/

/-- A property of documents that goes from objects and arrays to their parts and back. Every text
that is no reference is admitted. -/
structure Family where
  Admits : String → Prop
  Holds : Json → Prop
  admits_of_plain : ∀ {text : String}, isReference text = false → Admits text
  null : Holds .null
  bool : ∀ value : Bool, Holds (.bool value)
  number : ∀ value : Number, Holds (.number value)
  string_iff : ∀ {text : String}, Holds (.string text) ↔ Admits text
  array_iff : ∀ {items : List Json}, Holds (.array items) ↔ ∀ value ∈ items, Holds value
  of_object : ∀ {entries : List (String × Json)}, Holds (.object entries) →
    ∀ entry ∈ entries, Admits entry.1 ∧ Holds entry.2
  object : ∀ {entries : List (String × Json)}, (Entries.keys entries).Nodup →
    (∀ entry ∈ entries, Admits entry.1 ∧ Holds entry.2) → Holds (.object entries)

/-- The family of the values in which some references do not occur. -/
def avoiding (banned : String → Prop)
    (references : ∀ text, banned text → isReference text = true) : Family where
  Admits text := ¬ banned text
  Holds := Avoids banned
  admits_of_plain plain admitted := by
    rw [references _ admitted] at plain
    cases plain
  null := trivial
  bool _ := trivial
  number _ := trivial
  string_iff := Iff.rfl
  array_iff := avoids_array_iff
  of_object := avoids_object_iff.mp
  object _ admitted := avoids_object_iff.mpr admitted

/-- The family of all values. -/
def anything : Family where
  Admits _ := True
  Holds _ := True
  admits_of_plain _ := trivial
  null := trivial
  bool _ := trivial
  number _ := trivial
  string_iff := Iff.rfl
  array_iff := ⟨fun _ _ _ => trivial, fun _ => trivial⟩
  of_object _ _ _ := ⟨trivial, trivial⟩
  object _ _ := trivial

/-- No variable is referred to and no object repeats a key. -/
structure Settled (value : Json) : Prop where
  free : value.ReferenceFree
  distinct : value.DistinctKeys

theorem settled_array_iff {items : List Json} :
    (Json.array items).Settled ↔ ∀ value ∈ items, value.Settled := by
  constructor
  · intro whole value member
    exact ⟨avoids_array_iff.mp whole.free value member,
      distinctKeysItems_iff.mp whole.distinct value member⟩
  · intro parts
    exact ⟨avoids_array_iff.mpr fun value member => (parts value member).free,
      distinctKeysItems_iff.mpr fun value member => (parts value member).distinct⟩

theorem settled_object_iff {entries : List (String × Json)} :
    (Json.object entries).Settled ↔ (Entries.keys entries).Nodup ∧
      ∀ entry ∈ entries, isReference entry.1 = false ∧ entry.2.Settled := by
  constructor
  · intro whole
    have free := avoids_object_iff.mp whole.free
    refine ⟨whole.distinct.1, fun entry member => ?_⟩
    exact ⟨Bool.eq_false_iff.mpr (free entry member).1, (free entry member).2,
      distinctKeysEntries_iff.mp whole.distinct.2 entry member⟩
  · intro ⟨distinct, parts⟩
    refine ⟨avoids_object_iff.mpr fun entry member => ?_,
      distinct, distinctKeysEntries_iff.mpr fun entry member => (parts entry member).2.distinct⟩
    exact ⟨Bool.eq_false_iff.mp (parts entry member).1, (parts entry member).2.free⟩

/-- The family of settled values. -/
def settled : Family where
  Admits text := isReference text = false
  Holds := Settled
  admits_of_plain plain := plain
  null := ⟨trivial, trivial⟩
  bool _ := ⟨trivial, trivial⟩
  number _ := ⟨trivial, trivial⟩
  string_iff := ⟨fun whole => Bool.eq_false_iff.mpr whole.free,
    fun plain => ⟨Bool.eq_false_iff.mp plain, trivial⟩⟩
  array_iff := settled_array_iff
  of_object whole := (settled_object_iff.mp whole).2
  object distinct parts := settled_object_iff.mpr ⟨distinct, parts⟩

namespace Family

variable (family : Family)

/-- A value that there is belongs to the family. -/
def HoldsOption (value : Option Json) : Prop := ∀ v ∈ value, family.Holds v

/-- Both are the same, and a value that there is belongs to the family. -/
abbrev Shares (value other : Option Json) : Prop := value = other ∧ family.HoldsOption value

/-- A value of the family is used as a key that the family admits. -/
theorem admits_asKey {value : Json} (holds : family.Holds value) : family.Admits value.asKey := by
  cases reference : isReference value.asKey with
  | false => exact family.admits_of_plain reference
  | true =>
    rw [eq_string_of_isReference_asKey reference] at holds
    exact family.string_iff.mp holds

theorem admits_reserved {key : String} (reserved : isReserved key = true) : family.Admits key :=
  family.admits_of_plain (isReference_eq_false_of_isReserved reserved)

theorem holds_orNull {value : Option Json} (holds : ∀ v ∈ value, family.Holds v) :
    family.Holds (orNull value) := by
  cases value with
  | none => exact family.null
  | some value => exact holds value rfl

/-! ### Parts of documents -/

theorem holds_child? {document value : Json} {token : Token} (holds : family.Holds document)
    (found : document.child? token = some value) : family.Holds value := by
  cases document with
  | object entries =>
    have member : (token.text, value) ∈ entries := Entries.mem_of_get?_eq_some found
    exact (family.of_object holds _ member).2
  | array items =>
    obtain ⟨position, _, found⟩ := Option.bind_eq_some_iff.mp found
    exact family.array_iff.mp holds value (List.mem_of_getElem? found)
  | null => cases found
  | bool value => cases found
  | number value => cases found
  | string text => cases found

theorem holds_follow {document : Json} (holds : family.Holds document) (tokens : List Token) :
    ∀ value ∈ (document.follow tokens).value, family.Holds value := by
  induction tokens generalizing document with
  | nil =>
    rintro value ⟨rfl⟩
    exact holds
  | cons token rest ih =>
    intro value found
    rw [value_follow_cons] at found
    obtain ⟨next, step, found⟩ := Option.bind_eq_some_iff.mp found
    exact ih (family.holds_child? holds step) value found

theorem holds_parts {value : Option Json} (holds : ∀ v ∈ value, family.Holds v) :
    ∀ part ∈ parts value, family.Holds part := by
  intro part member
  unfold parts at member
  split at member
  · exact family.array_iff.mp (holds _ rfl) part member
  · next entries =>
    obtain ⟨entry, inside, rfl⟩ := List.mem_map.mp member
    obtain ⟨key, value⟩ := family.of_object (holds _ rfl) entry inside
    refine family.object (by simp [nameKey, valueKey]) ?_
    simp only [List.forall_mem_cons]
    exact ⟨⟨family.admits_reserved (by decide), family.string_iff.mpr key⟩,
      ⟨family.admits_reserved (by decide), value⟩, fun _ none => absurd none List.not_mem_nil⟩
  · rw [List.mem_singleton.mp member]
    exact family.holds_orNull holds

theorem holds_candidates {value : Option Json} (holds : ∀ v ∈ value, family.Holds v) :
    ∀ candidate ∈ candidates value, family.Holds candidate := by
  intro candidate member
  unfold candidates at member
  split at member
  · obtain ⟨position, _, rfl⟩ := List.mem_map.mp member
    exact family.number _
  · obtain ⟨key, inside, rfl⟩ := List.mem_map.mp member
    obtain ⟨value, inside⟩ := Entries.mem_keys_iff.mp inside
    exact family.string_iff.mpr (family.of_object (holds _ rfl) _ inside).1
  · rw [List.mem_singleton.mp member]
    exact family.holds_orNull holds

/-! ### Objects under construction -/

/-- The entries written so far make up an object of the family. -/
def Fields (entries : Entries Json) : Prop :=
  (Entries.keys entries).Nodup ∧ ∀ entry ∈ entries, family.Admits entry.1 ∧ family.Holds entry.2

theorem Fields.nil : family.Fields [] := ⟨List.nodup_nil, nofun⟩

variable {family}

theorem Fields.holds {entries : Entries Json} (fields : family.Fields entries) :
    family.Holds (.object entries) := family.object fields.1 fields.2

theorem Fields.insert {entries : Entries Json} {key : String} {value : Json}
    (fields : family.Fields entries) (admits : family.Admits key) (holds : family.Holds value) :
    family.Fields (Entries.insert entries key value) := by
  refine ⟨Entries.nodup_keys_insert fields.1 key value, fun entry member => ?_⟩
  rcases Entries.mem_of_mem_insert member with rfl | old
  · exact ⟨admits, holds⟩
  · exact fields.2 entry old

theorem Fields.put {missing : Missing} {entries : Entries Json} {key : String}
    {value : Option Json} (fields : family.Fields entries) (admits : family.Admits key)
    (holds : ∀ v ∈ value, family.Holds v) :
    family.Fields (missing.put entries key value).value := by
  cases value with
  | some value => exact fields.insert admits (holds value rfl)
  | none =>
    cases missing with
    | asNull => exact fields.insert admits family.null
    | omitted => exact fields

theorem Fields.filter {entries : Entries Json} (fields : family.Fields entries)
    (kept : String × Json → Bool) : family.Fields (entries.filter kept) :=
  ⟨(List.filter_sublist.map Prod.fst).nodup fields.1, fun entry member =>
    fields.2 entry (List.mem_filter.mp member).1⟩

end Family

end Json

end Reshape
