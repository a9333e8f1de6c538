import Mathlib.Data.List.Nodup
import Reshape.Proofs.PathText
import Reshape.Proofs.Reading

/-!
# Rules written back

`Rule.render` writes a rule as the document that spells it out, and `Json.normalRule` brings a
document into that form directly: in every repeating rule the path, the key and the index stand
first, and the reserved entries without a meaning are left out.

* `Rule.ofJsonBody_eq_ok_iff`: the parts of a repeating rule are read from its entries one by one,
  whatever the order of the entries is.
* `Rule.render_of_reads`: reading and writing back is normalising.
* `Rule.reads_normalRule_iff`: a document and its normal form are read as the same rule.
* `Rule.render_of_ofJson`: reading loses what the normal form leaves out, and nothing else.
-/

namespace Reshape

/-! ## The order of the entries of a repeating rule -/

namespace Entries

variable {α β : Type}

/-- The entries under some of the keys. -/
def restrict (kept : String → Bool) (entries : Entries α) : Entries α :=
  entries.filter fun entry => kept entry.1

/-- The entries under a name. -/
abbrev under (name : String) (entries : Entries α) : Entries α := restrict (· == name) entries

/-- The entries under keys that are not reserved. -/
abbrev unreserved (entries : Entries α) : Entries α := restrict (fun key => !isReserved key) entries

/-- The entries of a repeating rule apart from its path: the key, the index, and then the fields. -/
def arrange (entries : Entries α) : Entries α :=
  under keyEntry entries ++ (under indexEntry entries ++ unreserved entries)

theorem restrict_cons_of_pos {kept : String → Bool} {key : String} (inside : kept key = true)
    (value : α) (rest : Entries α) :
    restrict kept ((key, value) :: rest) = (key, value) :: restrict kept rest :=
  List.filter_cons_of_pos inside

theorem restrict_cons_of_neg {kept : String → Bool} {key : String} (outside : kept key = false)
    (value : α) (rest : Entries α) :
    restrict kept ((key, value) :: rest) = restrict kept rest :=
  List.filter_cons_of_neg (Bool.eq_false_iff.mp outside)

theorem under_cons_self (name : String) (value : α) (rest : Entries α) :
    under name ((name, value) :: rest) = (name, value) :: under name rest :=
  restrict_cons_of_pos (by exact BEq.rfl) value rest

theorem under_cons_of_ne {key name : String} (other : key ≠ name) (value : α) (rest : Entries α) :
    under name ((key, value) :: rest) = under name rest :=
  restrict_cons_of_neg (by exact beq_false_of_ne other) value rest

theorem unreserved_cons_of_isReserved {key : String} (reserved : isReserved key = true) (value : α)
    (rest : Entries α) : unreserved ((key, value) :: rest) = unreserved rest :=
  restrict_cons_of_neg (by rw [reserved, Bool.not_true]) value rest

theorem unreserved_cons_of_plain {key : String} (plain : isReserved key = false) (value : α)
    (rest : Entries α) : unreserved ((key, value) :: rest) = (key, value) :: unreserved rest :=
  restrict_cons_of_pos (by rw [plain, Bool.not_false]) value rest

theorem restrict_map (kept : String → Bool) (g : α → β) (entries : Entries α) :
    restrict kept (entries.map (Prod.map id g)) = (restrict kept entries).map (Prod.map id g) := by
  unfold restrict
  rw [List.filter_map]
  rfl

theorem under_map (g : α → β) (name : String) (entries : Entries α) :
    under name (entries.map (Prod.map id g)) = (under name entries).map (Prod.map id g) :=
  restrict_map _ g entries

theorem unreserved_map (g : α → β) (entries : Entries α) :
    unreserved (entries.map (Prod.map id g)) = (unreserved entries).map (Prod.map id g) :=
  restrict_map _ g entries

theorem arrange_map (g : α → β) (entries : Entries α) :
    arrange (entries.map (Prod.map id g)) = (arrange entries).map (Prod.map id g) := by
  rw [arrange, under_map, under_map, unreserved_map, arrange, List.map_append, List.map_append]

theorem restrict_arrange (kept : String → Bool) (entries : Entries α) :
    restrict kept (arrange entries) = restrict (fun key => kept key && key == keyEntry) entries ++
      (restrict (fun key => kept key && key == indexEntry) entries ++
        restrict (fun key => kept key && !isReserved key) entries) := by
  simp only [restrict, arrange, List.filter_append, List.filter_filter]

theorem restrict_eq_self {kept : String → Bool} {entries : Entries α}
    (all : ∀ key ∈ keys entries, kept key = true) : restrict kept entries = entries :=
  List.filter_eq_self.mpr fun entry member => all entry.1 (List.mem_map_of_mem member)

theorem restrict_eq_nil {kept : String → Bool} {entries : Entries α}
    (gone : ∀ key ∈ keys entries, kept key = false) : restrict kept entries = [] :=
  List.filter_eq_nil_iff.mpr fun entry member =>
    Bool.eq_false_iff.mp (gone entry.1 (List.mem_map_of_mem member))

theorem restrict_of_false {kept : String → Bool} (gone : ∀ key, kept key = false)
    (entries : Entries α) : restrict kept entries = [] :=
  restrict_eq_nil fun key _ => gone key

/-- A key is not both a name and in a class that the name is not in. -/
theorem beq_and_eq_false (name : String) (other : String → Bool) (apart : other name = false)
    (key : String) : (key == name && other key) = false := by
  by_cases same : key = name
  · rw [same, apart, Bool.and_false]
  · rw [beq_false_of_ne same, Bool.false_and]

theorem under_keyEntry_arrange (entries : Entries α) :
    under keyEntry (arrange entries) = under keyEntry entries := by
  have index := restrict_of_false (beq_and_eq_false keyEntry (· == indexEntry) (by decide)) entries
  have field := restrict_of_false
    (beq_and_eq_false keyEntry (fun key => !isReserved key) (by decide)) entries
  rw [under, restrict_arrange, index, field, List.append_nil, List.append_nil]
  simp only [Bool.and_self]

theorem under_indexEntry_arrange (entries : Entries α) :
    under indexEntry (arrange entries) = under indexEntry entries := by
  have named := restrict_of_false (beq_and_eq_false indexEntry (· == keyEntry) (by decide)) entries
  have field := restrict_of_false
    (beq_and_eq_false indexEntry (fun key => !isReserved key) (by decide)) entries
  rw [under, restrict_arrange, named, field, List.nil_append, List.append_nil]
  simp only [Bool.and_self]

theorem unreserved_arrange (entries : Entries α) :
    unreserved (arrange entries) = unreserved entries := by
  have named := restrict_of_false
    (beq_and_eq_false keyEntry (fun key => !isReserved key) (by decide)) entries
  have index := restrict_of_false
    (beq_and_eq_false indexEntry (fun key => !isReserved key) (by decide)) entries
  simp only [Bool.and_comm (_ == _)] at named index
  rw [unreserved, restrict_arrange, named, index, List.nil_append, List.nil_append]
  simp only [Bool.and_self]

/-- A change of the values adds no key. -/
theorem get?_map_eq_none {entries : Entries α} {key : String} (g : α → β)
    (absent : get? entries key = none) : get? (entries.map (Prod.map id g)) key = none := by
  rw [get?_eq_none_iff] at absent ⊢
  rwa [keys, List.map_map]

/-- Where keys are distinct there is at most one entry under a name. -/
theorem length_under_le_one {entries : Entries α} (distinct : (keys entries).Nodup)
    (name : String) : (under name entries).length ≤ 1 := by
  have once := List.nodup_iff_count_le_one.mp distinct name
  rwa [List.count_eq_countP, keys, List.countP_map, List.countP_eq_length_filter] at once

end Entries

/-! ## Reading the parts of a repeating rule -/

namespace Rule

/-- The value is read as the rule. -/
abbrev Reads (limit depth : Nat) (value : Json) (rule : Rule) : Prop :=
  Eval.result (ofJsonAt limit depth value) = .ok rule

/-- A rule that may be absent, as entries under a name. -/
def named (name : String) (rule : Option Rule) : List (String × Rule) :=
  rule.toList.map fun rule => (name, rule)

/-- The rule that may be absent is read from the entries under a name. -/
abbrev ReadsUnder (limit depth : Nat) (name : String) (entries : List (String × Json))
    (rule : Option Rule) : Prop :=
  List.Forall₂ (EntryOf limit depth) (Entries.under name entries) (named name rule)

/-- Every part of a repeating rule is read from the entries that belong to it. -/
structure BodyReads (limit depth : Nat) (entries : List (String × Json)) (body : Body) : Prop where
  key : ReadsUnder limit depth keyEntry entries body.key
  index : ReadsUnder limit depth indexEntry entries body.index
  fields : List.Forall₂ (EntryOf limit depth) (Entries.unreserved entries) body.fields

section Body

variable {limit depth : Nat} {entries rest : List (String × Json)} {name : String} {value : Json}
  {rule : Option Rule} {body : Body}

theorem readsUnder_of_nil (nothing : Entries.under name entries = []) :
    ReadsUnder limit depth name entries rule ↔ rule = none := by
  rw [ReadsUnder, nothing]
  cases rule with
  | none => exact iff_of_true .nil rfl
  | some rule => exact iff_of_false (fun reads => by cases reads) (Option.some_ne_none rule)

/-- The only entry under a name is read as the rule of this name. -/
theorem readsUnder_cons_iff (one : (Entries.under name ((name, value) :: rest)).length ≤ 1) :
    ReadsUnder limit depth name ((name, value) :: rest) rule ↔
      ∃ first, Reads limit depth value first ∧
        ∃ later, ReadsUnder limit depth name rest later ∧ (later <|> some first) = rule := by
  rw [Entries.under_cons_self, List.length_cons] at one
  have nothing : Entries.under name rest = [] := List.eq_nil_of_length_eq_zero (by omega)
  rw [ReadsUnder, Entries.under_cons_self, nothing]
  constructor
  · intro reads
    cases rule with
    | none => cases reads
    | some rule =>
      rcases reads with _ | ⟨first, _⟩
      exact ⟨rule, first.2, none, (readsUnder_of_nil nothing).mpr rfl, rfl⟩
  · rintro ⟨first, read, later, reads, rfl⟩
    obtain rfl := (readsUnder_of_nil nothing).mp reads
    exact .cons ⟨rfl, read⟩ .nil

theorem readsUnder_cons_of_ne {other : String} (apart : other ≠ name) :
    ReadsUnder limit depth name ((other, value) :: rest) rule ↔
      ReadsUnder limit depth name rest rule := by
  rw [ReadsUnder, Entries.under_cons_of_ne apart]

theorem bodyReads_iff : BodyReads limit depth entries body ↔
    ReadsUnder limit depth keyEntry entries body.key ∧
      ReadsUnder limit depth indexEntry entries body.index ∧
        List.Forall₂ (EntryOf limit depth) (Entries.unreserved entries) body.fields :=
  ⟨fun reads => ⟨reads.key, reads.index, reads.fields⟩,
    fun ⟨key, index, fields⟩ => ⟨key, index, fields⟩⟩

theorem bodyReads_nil_iff : BodyReads limit depth [] body ↔ body = ⟨none, none, []⟩ := by
  constructor
  · rintro ⟨key, index, fields⟩
    obtain ⟨keyRule, indexRule, fieldRules⟩ := body
    cases (readsUnder_of_nil rfl).mp key
    cases (readsUnder_of_nil rfl).mp index
    cases fields
    rfl
  · rintro rfl
    exact ⟨.nil, .nil, .nil⟩

theorem bodyReads_key_iff (one : (Entries.under keyEntry ((keyEntry, value) :: rest)).length ≤ 1) :
    BodyReads limit depth ((keyEntry, value) :: rest) body ↔
      ∃ rule, Reads limit depth value rule ∧ ∃ others, BodyReads limit depth rest others ∧
        { others with key := others.key <|> some rule } = body := by
  have apart : keyEntry ≠ indexEntry := by decide
  have fields := Entries.unreserved_cons_of_isReserved isReserved_keyEntry value rest
  constructor
  · intro reads
    obtain ⟨rule, read, later, readsLater, same⟩ := (readsUnder_cons_iff one).mp reads.key
    exact ⟨rule, read, { body with key := later },
      ⟨readsLater, (readsUnder_cons_of_ne apart).mp reads.index, fields ▸ reads.fields⟩,
      by rw [same]⟩
  · rintro ⟨rule, read, others, reads, rfl⟩
    exact ⟨(readsUnder_cons_iff one).mpr ⟨rule, read, others.key, reads.key, rfl⟩,
      (readsUnder_cons_of_ne apart).mpr reads.index, fields ▸ reads.fields⟩

theorem bodyReads_index_iff
    (one : (Entries.under indexEntry ((indexEntry, value) :: rest)).length ≤ 1) :
    BodyReads limit depth ((indexEntry, value) :: rest) body ↔
      ∃ rule, Reads limit depth value rule ∧ ∃ others, BodyReads limit depth rest others ∧
        { others with index := others.index <|> some rule } = body := by
  have apart : indexEntry ≠ keyEntry := by decide
  have fields := Entries.unreserved_cons_of_isReserved isReserved_indexEntry value rest
  constructor
  · intro reads
    obtain ⟨rule, read, later, readsLater, same⟩ := (readsUnder_cons_iff one).mp reads.index
    exact ⟨rule, read, { body with index := later },
      ⟨(readsUnder_cons_of_ne apart).mp reads.key, readsLater, fields ▸ reads.fields⟩,
      by rw [same]⟩
  · rintro ⟨rule, read, others, reads, rfl⟩
    exact ⟨(readsUnder_cons_of_ne apart).mpr reads.key,
      (readsUnder_cons_iff one).mpr ⟨rule, read, others.index, reads.index, rfl⟩,
      fields ▸ reads.fields⟩

/-- An entry that is neither a part nor a field makes no difference. -/
theorem bodyReads_ignored_iff (notKey : name ≠ keyEntry) (notIndex : name ≠ indexEntry)
    (reserved : isReserved name = true) :
    BodyReads limit depth ((name, value) :: rest) body ↔ BodyReads limit depth rest body := by
  have fields := Entries.unreserved_cons_of_isReserved reserved value rest
  constructor
  · intro reads
    exact ⟨(readsUnder_cons_of_ne notKey).mp reads.key,
      (readsUnder_cons_of_ne notIndex).mp reads.index, fields ▸ reads.fields⟩
  · intro reads
    exact ⟨(readsUnder_cons_of_ne notKey).mpr reads.key,
      (readsUnder_cons_of_ne notIndex).mpr reads.index, fields ▸ reads.fields⟩

theorem bodyReads_field_iff (plain : isReserved name = false) :
    BodyReads limit depth ((name, value) :: rest) body ↔
      ∃ rule, Reads limit depth value rule ∧ ∃ others, BodyReads limit depth rest others ∧
        { others with fields := (name, rule) :: others.fields } = body := by
  have apart : ∀ other, isReserved other = true → name ≠ other := by
    rintro _ reserved rfl
    rw [reserved] at plain
    cases plain
  have notKey := apart _ isReserved_keyEntry
  have notIndex := apart _ isReserved_indexEntry
  have fields := Entries.unreserved_cons_of_plain plain value rest
  constructor
  · rintro ⟨key, index, reads⟩
    rw [fields] at reads
    obtain ⟨keyRule, indexRule, fieldRules⟩ := body
    rcases reads with _ | @⟨_, ⟨_, rule⟩, _, others, ⟨rfl, read⟩, later⟩
    exact ⟨rule, read, ⟨keyRule, indexRule, others⟩,
      ⟨(readsUnder_cons_of_ne notKey).mp key, (readsUnder_cons_of_ne notIndex).mp index, later⟩,
      rfl⟩
  · rintro ⟨rule, read, others, reads, rfl⟩
    exact ⟨(readsUnder_cons_of_ne notKey).mpr reads.key,
      (readsUnder_cons_of_ne notIndex).mpr reads.index, fields ▸ .cons ⟨rfl, read⟩ reads.fields⟩

/-- What a repeating rule is built from one entry and the rest is read from both. -/
theorem bind_bind_eq_ok_iff {α β γ : Type} {first : Except Error α} {second : Except Error β}
    {build : α → β → γ} {result : γ} :
    (first >>= fun x => second >>= fun y => .ok (build x y)) = .ok result ↔
      ∃ x, first = .ok x ∧ ∃ y, second = .ok y ∧ build x y = result := by
  constructor
  · intro succeeds
    obtain ⟨x, firstOk, succeeds⟩ := of_bind_eq_ok succeeds
    obtain ⟨y, secondOk, succeeds⟩ := of_bind_eq_ok succeeds
    exact ⟨x, firstOk, y, secondOk, Except.ok.inj succeeds⟩
  · rintro ⟨x, rfl, y, rfl, rfl⟩
    rfl

theorem length_under_rest {entry : String × Json}
    (one : (Entries.under name (entry :: rest)).length ≤ 1) :
    (Entries.under name rest).length ≤ 1 :=
  Nat.le_trans ((List.sublist_cons_self entry rest).filter _).length_le one

/-- The entries of a repeating rule are read one by one, whatever their order is, if there is at
most one key and at most one index among them. -/
theorem ofJsonBody_eq_ok_iff (oneKey : (Entries.under keyEntry entries).length ≤ 1)
    (oneIndex : (Entries.under indexEntry entries).length ≤ 1) :
    Eval.result (ofJsonBody limit depth entries) = .ok body ↔
      BodyReads limit depth entries body := by
  induction entries generalizing body with
  | nil =>
    rw [result_ofJsonBody_nil, bodyReads_nil_iff, Except.ok.injEq, eq_comm]
  | cons entry rest ih =>
    obtain ⟨key, value⟩ := entry
    have ih {body : Body} := @ih body (length_under_rest oneKey) (length_under_rest oneIndex)
    rw [result_ofJsonBody_cons]
    split_ifs with each named placed reserved
    · subst each
      rw [ih, bodyReads_ignored_iff (by decide) (by decide) isReserved_eachEntry]
    · subst named
      rw [bodyReads_key_iff oneKey]
      simp only [← ih]
      exact bind_bind_eq_ok_iff
    · subst placed
      rw [bodyReads_index_iff oneIndex]
      simp only [← ih]
      exact bind_bind_eq_ok_iff
    · rw [ih, bodyReads_ignored_iff named placed reserved]
    · rw [bodyReads_field_iff (Bool.eq_false_iff.mpr reserved)]
      simp only [← ih]
      exact bind_bind_eq_ok_iff

end Body

end Rule

/-! ## Writing rules back, and normal forms -/

namespace Rule

mutual

/-- The document that spells a rule out. -/
def render : Rule → Json
  | .text source => .string source
  | .path source => .string source.text
  | .object entries => .object (renderEntries entries)
  | .each source key index fields =>
    .object ((eachEntry, .string source.text) ::
      (renderOption keyEntry key ++ (renderOption indexEntry index ++ renderEntries fields)))

/-- The entry of a rule that may be absent. -/
def renderOption (name : String) : Option Rule → List (String × Json)
  | none => []
  | some rule => [(name, render rule)]

/-- The same for entries. -/
def renderEntries : List (String × Rule) → List (String × Json)
  | [] => []
  | (key, rule) :: rest => (key, render rule) :: renderEntries rest

end

theorem renderOption_eq (name : String) (rule : Option Rule) :
    renderOption name rule = renderEntries (named name rule) := by
  cases rule with
  | none => rfl
  | some rule => rfl

end Rule

namespace Json

mutual

/-- The normal form of a document as a rule. A repeating rule has its path, its key and its index in
front of its fields, and no other reserved entry. -/
def normalRule : Json → Json
  | .object entries =>
    match Entries.get? entries eachEntry with
    | some source => .object ((eachEntry, source) :: Entries.arrange (normalEntries entries))
    | none => .object (normalEntries entries)
  | value => value

/-- The normal forms of the rules of all entries. -/
def normalEntries : List (String × Json) → List (String × Json)
  | [] => []
  | (key, value) :: rest => (key, normalRule value) :: normalEntries rest

end

theorem normalEntries_eq (entries : List (String × Json)) :
    normalEntries entries = entries.map (Prod.map id normalRule) := by
  induction entries with
  | nil => rfl
  | cons entry rest ih =>
    obtain ⟨key, value⟩ := entry
    rw [normalEntries, ih, List.map_cons, Prod.map_apply, id]

theorem normalRule_each {entries : List (String × Json)} {source : Json}
    (found : Entries.get? entries eachEntry = some source) :
    (Json.object entries).normalRule =
      .object ((eachEntry, source) ::
        (Entries.arrange entries).map (Prod.map id normalRule)) := by
  rw [normalRule, found, normalEntries_eq, Entries.arrange_map]

theorem normalRule_object {entries : List (String × Json)}
    (absent : Entries.get? entries eachEntry = none) :
    (Json.object entries).normalRule = .object (entries.map (Prod.map id normalRule)) := by
  rw [normalRule, absent, normalEntries_eq]

end Json

/-! ## Reading and writing back -/

namespace Rule

variable {limit depth : Nat} {entries : List (String × Json)} {rule : Rule}

theorem reads_each_iff (shallow : ¬ limit < depth) {source : Json}
    (found : Entries.get? entries eachEntry = some source)
    (oneKey : (Entries.under keyEntry entries).length ≤ 1)
    (oneIndex : (Entries.under indexEntry entries).length ≤ 1) :
    Reads limit depth (.object entries) rule ↔
      ∃ path, eachPath source = .ok path ∧ ∃ body, BodyReads limit (depth + 1) entries body ∧
        .each path body.key body.index body.fields = rule := by
  simp only [← ofJsonBody_eq_ok_iff oneKey oneIndex]
  rw [Reads, result_ofJsonAt_each shallow found]
  exact bind_bind_eq_ok_iff

theorem reads_object_iff (shallow : ¬ limit < depth)
    (absent : Entries.get? entries eachEntry = none) :
    Reads limit depth (.object entries) rule ↔
      ∃ rules, List.Forall₂ (EntryOf limit (depth + 1)) entries rules ∧ .object rules = rule := by
  rw [Reads, result_ofJsonAt_object shallow absent]
  constructor
  · intro read
    obtain ⟨rules, inner, read⟩ := of_bind_eq_ok read
    exact ⟨rules, entryOf_of_ofJsonEntries inner, Except.ok.inj read⟩
  · rintro ⟨rules, inner, rfl⟩
    rw [ofJsonEntries_of_entryOf inner]
    rfl

theorem renderEntries_of_entryOf {rules : List (String × Rule)}
    (parts : ∀ entry ∈ entries, ∀ rule, Reads limit depth entry.2 rule →
      rule.render = entry.2.normalRule)
    (read : List.Forall₂ (EntryOf limit depth) entries rules) :
    renderEntries rules = entries.map (Prod.map id Json.normalRule) := by
  induction read with
  | nil => rfl
  | @cons entry rule rest others first _ ih =>
    obtain ⟨here, parts⟩ := List.forall_mem_cons.mp parts
    obtain ⟨key, rule⟩ := rule
    obtain ⟨rfl, read⟩ := first
    rw [renderEntries, here rule read, ih parts]
    rfl

/-- A path in a document is the string that is its text. -/
theorem eq_string_of_eachPath {source : Json} {path : Path} (parsed : eachPath source = .ok path) :
    source = .string path.text := by
  cases source with
  | string text => exact congrArg Json.string (Path.text_of_ofText parsed).symm
  | null => cases parsed
  | bool value => cases parsed
  | number value => cases parsed
  | array items => cases parsed
  | object entries => cases parsed

/-- Reading a document and writing the rule back is normalising the document. -/
theorem render_of_reads {value : Json} (distinct : value.DistinctKeys)
    (read : Reads limit depth value rule) : rule.render = value.normalRule := by
  induction value generalizing depth rule with
  | null => cases ruleOf_of_ofJsonAt read
  | bool value => cases ruleOf_of_ofJsonAt read
  | number value => cases ruleOf_of_ofJsonAt read
  | array items _ => cases ruleOf_of_ofJsonAt read
  | string source =>
    cases ruleOf_of_ofJsonAt read with
    | text _ => rfl
    | path parsed => exact congrArg Json.string (Path.text_of_ofText parsed)
  | object entries ih =>
    obtain ⟨nodup, distinct⟩ := distinct
    have distinct := Json.distinctKeysEntries_iff.mp distinct
    have shallow := shallow_of_ofJsonAt read
    have inside : ∀ entry ∈ entries, ∀ rule, Reads limit (depth + 1) entry.2 rule →
        rule.render = entry.2.normalRule :=
      fun entry member rule read => ih entry member (distinct entry member) read
    cases found : Entries.get? entries eachEntry with
    | none =>
      obtain ⟨rules, related, rfl⟩ := (reads_object_iff shallow found).mp read
      rw [Json.normalRule_object found, render, renderEntries_of_entryOf inside related]
    | some source =>
      obtain ⟨path, parsed, body, reads, rfl⟩ := (reads_each_iff shallow found
        (Entries.length_under_le_one nodup _) (Entries.length_under_le_one nodup _)).mp read
      have kept : ∀ kept, ∀ entry ∈ Entries.restrict kept entries, ∀ rule,
          Reads limit (depth + 1) entry.2 rule → rule.render = entry.2.normalRule :=
        fun kept entry member => inside entry (List.mem_filter.mp member).1
      rw [Json.normalRule_each found, render, renderOption_eq, renderOption_eq,
        renderEntries_of_entryOf (kept _) reads.key, renderEntries_of_entryOf (kept _) reads.index,
        renderEntries_of_entryOf (kept _) reads.fields, eq_string_of_eachPath parsed,
        Entries.arrange, List.map_append, List.map_append]

theorem forall₂_normalRule_iff {rules : List (String × Rule)}
    (parts : ∀ entry ∈ entries, ∀ rule, Reads limit depth entry.2.normalRule rule ↔
      Reads limit depth entry.2 rule) :
    List.Forall₂ (EntryOf limit depth) (entries.map (Prod.map id Json.normalRule)) rules ↔
      List.Forall₂ (EntryOf limit depth) entries rules := by
  induction entries generalizing rules with
  | nil => rw [List.map_nil]
  | cons entry rest ih =>
    obtain ⟨here, parts⟩ := List.forall_mem_cons.mp parts
    have first : ∀ rule, EntryOf limit depth (Prod.map id Json.normalRule entry) rule ↔
        EntryOf limit depth entry rule := fun rule => and_congr_right fun _ => here rule.2
    rw [List.map_cons, List.forall₂_cons_left_iff, List.forall₂_cons_left_iff]
    simp only [first, ih parts]

/-- The parts of a repeating rule are read from its normal form as they are from the rule itself. -/
theorem bodyReads_arrange_iff {source : Json} {body : Body}
    (parts : ∀ entry ∈ entries, ∀ rule, Reads limit depth entry.2.normalRule rule ↔
      Reads limit depth entry.2 rule) :
    BodyReads limit depth
        ((eachEntry, source) :: (Entries.arrange entries).map (Prod.map id Json.normalRule)) body ↔
      BodyReads limit depth entries body := by
  have kept : ∀ kept, ∀ entry ∈ Entries.restrict kept entries, ∀ rule,
      Reads limit depth entry.2.normalRule rule ↔ Reads limit depth entry.2 rule :=
    fun kept entry member => parts entry (List.mem_filter.mp member).1
  rw [bodyReads_ignored_iff (by decide) (by decide) isReserved_eachEntry, bodyReads_iff,
    bodyReads_iff]
  rw [ReadsUnder, ReadsUnder, ReadsUnder, ReadsUnder, Entries.under_map, Entries.under_map,
    Entries.unreserved_map, Entries.under_keyEntry_arrange, Entries.under_indexEntry_arrange,
    Entries.unreserved_arrange, forall₂_normalRule_iff (kept _), forall₂_normalRule_iff (kept _),
    forall₂_normalRule_iff (kept _)]

/-- A document and its normal form are read as the same rule. -/
theorem reads_normalRule_iff {value : Json} (distinct : value.DistinctKeys) :
    Reads limit depth value.normalRule rule ↔ Reads limit depth value rule := by
  induction value generalizing depth rule with
  | null => exact Iff.rfl
  | bool value => exact Iff.rfl
  | number value => exact Iff.rfl
  | string text => exact Iff.rfl
  | array items _ => exact Iff.rfl
  | object entries ih =>
    by_cases deep : limit < depth
    · rw [Reads, Reads, result_ofJsonAt_deep deep, result_ofJsonAt_deep deep]
    · obtain ⟨nodup, distinct⟩ := distinct
      have distinct := Json.distinctKeysEntries_iff.mp distinct
      have parts : ∀ entry ∈ entries, ∀ rule, Reads limit (depth + 1) entry.2.normalRule rule ↔
          Reads limit (depth + 1) entry.2 rule :=
        fun entry member rule => ih entry member (distinct entry member)
      cases found : Entries.get? entries eachEntry with
      | none =>
        have absent := Entries.get?_map_eq_none Json.normalRule found
        rw [Json.normalRule_object found, reads_object_iff deep absent, reads_object_iff deep found]
        simp only [forall₂_normalRule_iff parts]
      | some source =>
        have oneKey := Entries.length_under_le_one nodup keyEntry
        have oneIndex := Entries.length_under_le_one nodup indexEntry
        have front : Entries.get? ((eachEntry, source) :: (Entries.arrange entries).map
            (Prod.map id Json.normalRule)) eachEntry = some source := if_pos rfl
        rw [Json.normalRule_each found, reads_each_iff deep found oneKey oneIndex,
          reads_each_iff deep front]
        · simp only [bodyReads_arrange_iff parts]
        · rw [Entries.under_cons_of_ne (by decide), Entries.under_map, List.length_map,
            Entries.under_keyEntry_arrange]
          exact oneKey
        · rw [Entries.under_cons_of_ne (by decide), Entries.under_map, List.length_map,
            Entries.under_indexEntry_arrange]
          exact oneIndex

/-- Reading rules loses what the normal form of a document leaves out, and nothing else: the rule is
written back as the normal form, it is read again from what is written, and the documents that are
read as this rule are those with this normal form, under whatever limits they are read. -/
theorem render_of_ofJson {limit : Nat} {value : Json} (distinct : value.DistinctKeys) {rule : Rule}
    (read : Eval.result (ofJson limit value) = .ok rule) :
    rule.render = value.normalRule ∧
      Eval.result (ofJson limit rule.render) = .ok rule ∧
      (∀ other : Json, other.DistinctKeys →
        (Eval.result (ofJson limit other) = .ok rule ↔ other.normalRule = value.normalRule)) ∧
      ∀ (other : Json) (limit' : Nat) (rule' : Rule), other.DistinctKeys →
        Eval.result (ofJson limit' other) = .ok rule' →
        (rule' = rule ↔ other.normalRule = value.normalRule) := by
  have normal : rule.render = value.normalRule := render_of_reads distinct read
  have again : Reads limit 0 value.normalRule rule := (reads_normalRule_iff distinct).mpr read
  refine ⟨normal, normal ▸ again, fun other distinctOther => ?_,
    fun other limit' rule' distinctOther readOther => ?_⟩
  · constructor
    · intro readOther
      exact (render_of_reads distinctOther readOther).symm.trans normal
    · intro same
      exact (reads_normalRule_iff distinctOther).mp (same ▸ again)
  · have normalOther : rule'.render = other.normalRule := render_of_reads distinctOther readOther
    constructor
    · rintro rfl
      exact normalOther.symm.trans normal
    · intro same
      have againOther : Reads limit' 0 other.normalRule rule' :=
        (reads_normalRule_iff distinctOther).mpr readOther
      exact unambiguous _ againOther (same ▸ again)

/-- A repeating rule in a repeating rule, both out of order, with reserved entries that could not be
read as rules. -/
theorem render_of_ofJson_rows :
    let written : Json := .object [("out", .object [("$index", .string "$.n"),
      ("cells", .object [("$value", .ofNat 3), (":c", .string "$.$value"), ("$key", .string ":c"),
        ("$each", .string "$.cells.:c")]),
      ("$each", .string "$.rows"), ("$note", .object [("$each", .null)])]),
      ("$note", .string "kept")]
    let normal : Json := .object [("out", .object [("$each", .string "$.rows"),
      ("$index", .string "$.n"),
      ("cells", .object [("$each", .string "$.cells.:c"), ("$key", .string ":c"),
        (":c", .string "$.$value")])]),
      ("$note", .string "kept")]
    let rule : Rule := .object [("out", .each ⟨[.key "rows"]⟩ none (some (.path ⟨[.key "n"]⟩))
      [("cells", .each ⟨[.key "cells", .var ":c"]⟩ (some (.text ":c")) none
        [(":c", .path ⟨[.key "$value"]⟩)])]), ("$note", .text "kept")]
    Eval.result (ofJson 3 written) = .ok rule ∧ rule.render = normal ∧
      Eval.result (ofJson 3 normal) = .ok rule := by
  intro written normal rule
  have distinct : written.DistinctKeys := by
    simp only [written, Json.DistinctKeys, Json.DistinctKeysEntries, Json.ofNat]
    decide
  have read : Eval.result (ofJson 3 written) = .ok rule := by decide +kernel
  have same : written.normalRule = normal := by decide +kernel
  obtain ⟨rendered, again, _⟩ := render_of_ofJson distinct read
  have rendered : rule.render = normal := rendered.trans same
  exact ⟨read, rendered, rendered ▸ again⟩

end Rule

end Reshape
