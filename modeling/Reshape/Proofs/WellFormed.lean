import Mathlib.Order.Bounds.Basic
import Reshape.Proofs.Rendering

/-!
# Well-formed rules

The evaluation of rules relies on what reading establishes piece by piece: texts are no paths, paths
are spelled by their own texts, keys are distinct, the fields of a repeating rule are not reserved,
and nothing is nested too deep. `Rule.WellFormed` puts these together.

* `Rule.isGreatest_nesting`: the nesting of a rule is the depth of its innermost part.
* `Rule.reads_render`: a well-formed rule is read back from the document that spells it out.
* `Rule.ofJson_image`: the rules that are read from documents are the well-formed ones.
-/

namespace Reshape

namespace Rule

/-! ## Nesting -/

mutual

/-- The number of rule objects around the innermost part of a rule. -/
def nesting : Rule → Nat
  | .text _ => 0
  | .path _ => 0
  | .object entries => nestingEntries entries
  | .each _ key index fields =>
    max (nestingOption key) (max (nestingOption index) (nestingEntries fields))

/-- The same for a rule object of which one part may be absent. -/
def nestingOption : Option Rule → Nat
  | none => 0
  | some rule => rule.nesting + 1

/-- The same for a rule object with these entries. -/
def nestingEntries : List (String × Rule) → Nat
  | [] => 0
  | (_, rule) :: rest => max (rule.nesting + 1) (nestingEntries rest)

end

/-- A rule has a part inside so many rule objects, itself included. -/
inductive HasPart : Rule → Nat → Rule → Prop where
  | here (rule : Rule) : HasPart rule 0 rule
  | inside {rule part inner : Rule} {depth : Nat} :
    part ∈ rule.parts → HasPart part depth inner → HasPart rule (depth + 1) inner

theorem nestingOption_le_iff {rule : Option Rule} {n : Nat} :
    nestingOption rule ≤ n ↔ ∀ part ∈ rule.toList, part.nesting < n := by
  cases rule with
  | none => simp [nestingOption]
  | some rule => rw [nestingOption, Nat.succ_le_iff, Option.toList_some, List.forall_mem_singleton]

theorem nestingEntries_le_iff {entries : List (String × Rule)} {n : Nat} :
    nestingEntries entries ≤ n ↔ ∀ part ∈ entries.map Prod.snd, part.nesting < n := by
  induction entries with
  | nil => simp [nestingEntries]
  | cons entry rest ih =>
    obtain ⟨key, rule⟩ := entry
    rw [nestingEntries, Nat.max_le, ih, List.map_cons, List.forall_mem_cons, Nat.succ_le_iff]

theorem nesting_le_iff {rule : Rule} {n : Nat} :
    rule.nesting ≤ n ↔ ∀ part ∈ rule.parts, part.nesting < n := by
  cases rule with
  | text source => exact iff_of_true (Nat.zero_le n) nofun
  | path source => exact iff_of_true (Nat.zero_le n) nofun
  | object entries => exact nestingEntries_le_iff
  | each source key index fields =>
    rw [nesting, Nat.max_le, Nat.max_le, nestingOption_le_iff, nestingOption_le_iff,
      nestingEntries_le_iff, parts, List.forall_mem_append, List.forall_mem_append, and_assoc]

theorem le_nesting_of_hasPart {rule part : Rule} {depth : Nat} (inside : rule.HasPart depth part) :
    depth ≤ rule.nesting := by
  induction inside with
  | here rule => exact Nat.zero_le _
  | inside member _ ih =>
    have less := nesting_le_iff.mp (Nat.le_refl _) _ member
    omega

theorem exists_hasPart_nesting (rule : Rule) : ∃ part, rule.HasPart rule.nesting part := by
  induction rule using inductOnParts with
  | step rule ih =>
    cases same : rule.nesting with
    | zero => exact ⟨rule, .here rule⟩
    | succ n =>
      -- not all parts can nest less than they have to for `n + 1`
      have deeper : ¬ rule.nesting ≤ n := by omega
      rw [nesting_le_iff] at deeper
      push Not at deeper
      obtain ⟨part, member, reaches⟩ := deeper
      have less := nesting_le_iff.mp (Nat.le_refl _) part member
      obtain ⟨inner, inside⟩ := ih part member
      have exact : part.nesting = n := by omega
      exact ⟨inner, .inside member (exact ▸ inside)⟩

/-- The nesting of a rule is the depth of its innermost part. -/
theorem isGreatest_nesting (rule : Rule) :
    IsGreatest {depth | ∃ part, rule.HasPart depth part} rule.nesting :=
  ⟨exists_hasPart_nesting rule, fun _ ⟨_, inside⟩ => le_nesting_of_hasPart inside⟩

/-! ## Well-formed rules -/

/-- What holds of a rule that was read, apart from the rules inside it. -/
def Regular : Rule → Prop
  | .text source => beginsWithDollar source = false
  | .path source => Path.ofText source.text = .ok source
  | .object entries => eachEntry ∉ Entries.keys entries ∧ (Entries.keys entries).Nodup
  | .each source _ _ fields => Path.ofText source.text = .ok source ∧
      (Entries.keys fields).Nodup ∧ ∀ key ∈ Entries.keys fields, isReserved key = false

/-- The rule and all rules inside it are regular, and none of them lies deeper than the limit. -/
structure WellFormed (limit : Nat) (rule : Rule) : Prop where
  regular : rule.Every Regular
  shallow : ∀ depth part, rule.HasPart depth part → depth ≤ limit

theorem wellFormed_iff {limit : Nat} {rule : Rule} :
    rule.WellFormed limit ↔ rule.Every Regular ∧ rule.nesting ≤ limit := by
  constructor
  · intro well
    obtain ⟨part, inside⟩ := exists_hasPart_nesting rule
    exact ⟨well.regular, well.shallow _ part inside⟩
  · intro ⟨regular, shallow⟩
    exact ⟨regular, fun depth part inside => (le_nesting_of_hasPart inside).trans shallow⟩

/-! ## Rules that were read -/

section Reads

variable {limit depth : Nat} {value : Json} {rule : Rule}

/-- The parts of a rule were read from entries of the value that the rule was read from. -/
theorem exists_entry_of_mem_parts (read : Reads limit depth value rule) {part : Rule}
    (member : part ∈ rule.parts) :
    ∃ entries, value = .object entries ∧
      ∃ entry ∈ entries, Reads limit (depth + 1) entry.2 part := by
  cases ruleOf_of_ofJsonAt read with
  | text _ => cases member
  | path _ => cases member
  | object related =>
    obtain ⟨rule, inside, rfl⟩ := List.mem_map.mp member
    obtain ⟨entry, origin, _, read⟩ := mem_of_entryOf related inside
    exact ⟨_, rfl, entry, origin, read⟩
  | each found parsed body =>
    have ofName {name : String} {entries : List (String × Json)}
        (origin : ReadFrom limit (depth + 1) entries name part) :
        ∃ entry ∈ entries, Reads limit (depth + 1) entry.2 part := by
      obtain ⟨value, inside, read⟩ := origin
      exact ⟨(name, value), inside, read⟩
    refine ⟨_, rfl, ?_⟩
    rcases List.mem_append.mp member with member | field
    · rcases List.mem_append.mp member with key | index
      · exact ofName (body.key part (Option.mem_toList.mp key))
      · exact ofName (body.index part (Option.mem_toList.mp index))
    · obtain ⟨field, inside, rfl⟩ := List.mem_map.mp field
      obtain ⟨entry, origin, _, read⟩ := mem_of_entryOf body.fields inside
      exact ⟨entry, (List.mem_filter.mp origin).1, read⟩

/-- What was read at a depth leaves room for its nesting. -/
theorem nesting_of_reads (read : Reads limit depth value rule) : depth + rule.nesting ≤ limit := by
  -- by induction on the rule: each part was read one level deeper, from whatever value it was
  induction rule using inductOnParts generalizing depth value with
  | step rule ih =>
    have shallow := shallow_of_ofJsonAt read
    have parts : rule.nesting ≤ limit - depth := nesting_le_iff.mpr fun part member => by
      obtain ⟨_, _, entry, _, inner⟩ := exists_entry_of_mem_parts read member
      have room := ih part member inner
      omega
    omega

/-- An object that is read as an object of rules has no entry `$each`. -/
theorem get?_eq_none_of_reads {entries : List (String × Json)} {rules : List (String × Rule)}
    (read : Reads limit depth (.object entries) (.object rules)) :
    Entries.get? entries eachEntry = none := by
  cases found : Entries.get? entries eachEntry with
  | none => rfl
  | some source =>
    rw [Reads, result_ofJsonAt_each (shallow_of_ofJsonAt read) found] at read
    obtain ⟨path, _, read⟩ := of_bind_eq_ok read
    obtain ⟨body, _, read⟩ := of_bind_eq_ok read
    cases read

theorem regular_of_reads (distinct : value.DistinctKeys) (read : Reads limit depth value rule) :
    rule.Regular := by
  cases ruleOf_of_ofJsonAt read with
  | text plain => exact plain
  | path parsed =>
    rw [Regular, Path.text_of_ofText parsed]
    exact parsed
  | object related =>
    have keys := keys_of_entryOf related
    have absent := get?_eq_none_of_reads read
    rw [Regular, keys]
    exact ⟨Entries.get?_eq_none_iff.mp absent, distinct.1⟩
  | each found parsed body =>
    have keys := keys_of_entryOf body.fields
    rw [eq_string_of_eachPath parsed] at parsed
    rw [Regular, keys]
    refine ⟨parsed, (List.filter_sublist.map Prod.fst).nodup distinct.1, fun key member => ?_⟩
    obtain ⟨entry, inside, rfl⟩ := List.mem_map.mp member
    have plain := (List.mem_filter.mp inside).2
    rwa [Bool.not_eq_true'] at plain

theorem every_regular_of_reads (distinct : value.DistinctKeys)
    (read : Reads limit depth value rule) : rule.Every Regular := by
  induction rule using inductOnParts generalizing depth value with
  | step rule ih =>
    refine every_iff_parts.mpr ⟨regular_of_reads distinct read, fun part member => ?_⟩
    obtain ⟨entries, rfl, entry, origin, inner⟩ := exists_entry_of_mem_parts read member
    exact ih part member (Json.distinctKeysEntries_iff.mp distinct.2 entry origin) inner

end Reads

/-! ## Rules that are written back -/

section Render

variable {limit depth : Nat} {source : Path} {key index : Option Rule}
  {entries fields : List (String × Rule)}

theorem renderEntries_eq (entries : List (String × Rule)) :
    renderEntries entries = entries.map (Prod.map id render) := by
  induction entries with
  | nil => rfl
  | cons entry rest ih =>
    obtain ⟨name, rule⟩ := entry
    rw [renderEntries, ih]
    rfl

theorem keys_map_render (entries : List (String × Rule)) :
    Entries.keys (entries.map (Prod.map id render)) = Entries.keys entries := by
  rw [Entries.keys, List.map_map]
  rfl

/-- The rules of a repeating rule under the names that they are written under. -/
def bodyEntries (key index : Option Rule) (fields : List (String × Rule)) :
    List (String × Rule) :=
  named keyEntry key ++ (named indexEntry index ++ fields)

theorem render_each (source : Path) (key index : Option Rule) (fields : List (String × Rule)) :
    (Rule.each source key index fields).render = .object ((eachEntry, .string source.text) ::
      (bodyEntries key index fields).map (Prod.map id render)) := by
  rw [render, renderOption_eq, renderOption_eq, renderEntries_eq, renderEntries_eq,
    renderEntries_eq, bodyEntries, List.map_append, List.map_append]

theorem keys_named_sublist (name : String) (rule : Option Rule) :
    (Entries.keys (named name rule)).Sublist [name] := by
  cases rule with
  | none => exact List.nil_sublist _
  | some rule => exact .refl _

/-- A reserved name is not among keys that are not reserved. -/
theorem notMem_keys_of_isReserved (plain : ∀ key ∈ Entries.keys fields, isReserved key = false)
    {name : String} (reserved : isReserved name = true) : name ∉ Entries.keys fields := by
  intro member
  rw [plain name member] at reserved
  cases reserved

/-- The names of the parts do not clash with the fields, which are not reserved. -/
theorem nodup_keys_bodyEntries (distinct : (Entries.keys fields).Nodup)
    (plain : ∀ key ∈ Entries.keys fields, isReserved key = false) :
    (eachEntry :: Entries.keys (bodyEntries key index fields)).Nodup := by
  have all : ([eachEntry, keyEntry, indexEntry] ++ Entries.keys fields).Nodup := by
    refine List.nodup_append.mpr ⟨by decide, distinct, fun name reserved _ member same => ?_⟩
    have named : ∀ name ∈ [eachEntry, keyEntry, indexEntry], isReserved name = true := by decide
    exact notMem_keys_of_isReserved plain (same ▸ named name reserved) member
  refine List.Sublist.nodup ?_ all
  rw [bodyEntries, Entries.keys_append, Entries.keys_append]
  exact ((keys_named_sublist keyEntry key).append
    ((keys_named_sublist indexEntry index).append (.refl _))).cons_cons eachEntry

theorem restrict_bodyEntries (kept : String → Bool) :
    Entries.restrict kept (bodyEntries key index fields) =
      Entries.restrict kept (named keyEntry key) ++
        (Entries.restrict kept (named indexEntry index) ++ Entries.restrict kept fields) := by
  rw [Entries.restrict, bodyEntries, List.filter_append, List.filter_append]
  rfl

theorem restrict_named {kept : String → Bool} {name : String} (inside : kept name = true)
    (rule : Option Rule) : Entries.restrict kept (named name rule) = named name rule :=
  Entries.restrict_eq_self fun key member => by
    rw [List.mem_singleton.mp ((keys_named_sublist name rule).subset member)]
    exact inside

theorem restrict_named_of_false {kept : String → Bool} {name : String}
    (outside : kept name = false) (rule : Option Rule) :
    Entries.restrict kept (named name rule) = [] :=
  Entries.restrict_eq_nil fun key member => by
    rw [List.mem_singleton.mp ((keys_named_sublist name rule).subset member)]
    exact outside

theorem beq_eq_false_of_plain (plain : ∀ key ∈ Entries.keys fields, isReserved key = false)
    {name : String} (reserved : isReserved name = true) :
    ∀ key ∈ Entries.keys fields, (key == name) = false := fun _ member =>
  beq_false_of_ne fun same => notMem_keys_of_isReserved plain reserved (same ▸ member)

theorem restrict_named_self (name : String) (rule : Option Rule) :
    Entries.restrict (· == name) (named name rule) = named name rule :=
  restrict_named (by exact BEq.rfl) rule

theorem under_keyEntry_bodyEntries
    (plain : ∀ key ∈ Entries.keys fields, isReserved key = false) :
    Entries.under keyEntry (bodyEntries key index fields) = named keyEntry key := by
  rw [Entries.under, restrict_bodyEntries, restrict_named_self, restrict_named_of_false (by decide),
    List.nil_append, Entries.restrict_eq_nil (beq_eq_false_of_plain plain isReserved_keyEntry),
    List.append_nil]

theorem under_indexEntry_bodyEntries
    (plain : ∀ key ∈ Entries.keys fields, isReserved key = false) :
    Entries.under indexEntry (bodyEntries key index fields) = named indexEntry index := by
  rw [Entries.under, restrict_bodyEntries, restrict_named_self, restrict_named_of_false (by decide),
    List.nil_append, Entries.restrict_eq_nil (beq_eq_false_of_plain plain isReserved_indexEntry),
    List.append_nil]

theorem unreserved_bodyEntries
    (plain : ∀ key ∈ Entries.keys fields, isReserved key = false) :
    Entries.unreserved (bodyEntries key index fields) = fields := by
  rw [Entries.unreserved, restrict_bodyEntries, restrict_named_of_false (by decide),
    restrict_named_of_false (by decide), List.nil_append, List.nil_append]
  exact Entries.restrict_eq_self fun key member => by rw [plain key member, Bool.not_false]

theorem entryOf_render
    (parts : ∀ entry ∈ entries, Reads limit depth entry.2.render entry.2) :
    List.Forall₂ (EntryOf limit depth) (entries.map (Prod.map id render)) entries := by
  rw [List.forall₂_map_left_iff, List.forall₂_same]
  exact fun entry member => ⟨rfl, parts entry member⟩

theorem bodyReads_render (plain : ∀ key ∈ Entries.keys fields, isReserved key = false)
    (parts : ∀ entry ∈ bodyEntries key index fields, Reads limit depth entry.2.render entry.2) :
    BodyReads limit depth ((bodyEntries key index fields).map (Prod.map id render))
      ⟨key, index, fields⟩ := by
  have kept (kept : String → Bool) : List.Forall₂ (EntryOf limit depth)
      ((Entries.restrict kept (bodyEntries key index fields)).map (Prod.map id render))
      (Entries.restrict kept (bodyEntries key index fields)) :=
    entryOf_render fun entry member => parts entry (List.mem_filter.mp member).1
  refine ⟨?_, ?_, ?_⟩
  · have named := kept (· == keyEntry)
    rw [← Entries.under, under_keyEntry_bodyEntries plain] at named
    rw [ReadsUnder, Entries.under_map, under_keyEntry_bodyEntries plain]
    exact named
  · have named := kept (· == indexEntry)
    rw [← Entries.under, under_indexEntry_bodyEntries plain] at named
    rw [ReadsUnder, Entries.under_map, under_indexEntry_bodyEntries plain]
    exact named
  · have body := kept fun key => !isReserved key
    rw [← Entries.unreserved, unreserved_bodyEntries plain] at body
    rw [Entries.unreserved_map, unreserved_bodyEntries plain]
    exact body

theorem mem_parts_of_mem_bodyEntries {entry : String × Rule}
    (member : entry ∈ bodyEntries key index fields) :
    entry.2 ∈ (Rule.each source key index fields).parts := by
  have inNamed {name : String} {rule : Option Rule} (member : entry ∈ named name rule) :
      entry.2 ∈ rule.toList := by
    obtain ⟨rule, inside, rfl⟩ := List.mem_map.mp member
    exact inside
  rw [parts, List.append_assoc]
  rcases List.mem_append.mp member with key | member
  · exact List.mem_append_left _ (inNamed key)
  · rcases List.mem_append.mp member with index | field
    · exact List.mem_append_right _ (List.mem_append_left _ (inNamed index))
    · exact List.mem_append_right _ (List.mem_append_right _ (List.mem_map_of_mem field))

/-- A rule with regular parts is written as a document without repeated keys. -/
theorem distinctKeys_render {rule : Rule} (regular : rule.Every Regular) :
    rule.render.DistinctKeys := by
  induction rule using inductOnParts with
  | step rule ih =>
    obtain ⟨here, parts⟩ := every_iff_parts.mp regular
    have inside : ∀ part ∈ rule.parts, part.render.DistinctKeys :=
      fun part member => ih part member (parts part member)
    cases rule with
    | text source => exact trivial
    | path source => exact trivial
    | object entries =>
      rw [render, renderEntries_eq, Json.DistinctKeys, keys_map_render,
        Json.distinctKeysEntries_iff, List.forall_mem_map]
      exact ⟨here.2, fun entry member => inside _ (List.mem_map_of_mem member)⟩
    | each source key index fields =>
      rw [render_each, Json.DistinctKeys, Entries.keys_cons, keys_map_render,
        Json.distinctKeysEntries_iff, List.forall_mem_cons, List.forall_mem_map]
      exact ⟨nodup_keys_bodyEntries here.2.1 here.2.2, trivial,
        fun entry member => inside _ (mem_parts_of_mem_bodyEntries member)⟩

/-- A well-formed rule is read back from the document that spells it out. -/
theorem reads_render {rule : Rule} (regular : rule.Every Regular)
    (room : depth + rule.nesting ≤ limit) : Reads limit depth rule.render rule := by
  induction rule using inductOnParts generalizing depth with
  | step rule ih =>
    obtain ⟨here, parts⟩ := every_iff_parts.mp regular
    have shallow : ¬ limit < depth := by omega
    -- a part is nested less, which makes up for the level that it lies deeper
    have inside : ∀ part ∈ rule.parts, Reads limit (depth + 1) part.render part := by
      intro part member
      have less := nesting_le_iff.mp (Nat.le_refl _) part member
      exact ih part member (parts part member) (by omega)
    cases rule with
    | text source =>
      have plain : ¬ beginsWithDollar source = true := Bool.eq_false_iff.mp here
      rw [Reads, render, result_ofJsonAt_string shallow, if_neg plain]
    | path source =>
      rw [Reads, render, result_ofJsonAt_string shallow, if_pos source.beginsWithDollar_text, here]
      rfl
    | object entries =>
      have absent := Entries.get?_map_eq_none render (Entries.get?_eq_none_iff.mpr here.1)
      rw [render, renderEntries_eq]
      refine (reads_object_iff shallow absent).mpr ⟨entries, entryOf_render ?_, rfl⟩
      exact fun entry member => inside _ (List.mem_map_of_mem member)
    | each source key index fields =>
      obtain ⟨parsed, distinct, plain⟩ := here
      have nodup : (Entries.keys ((eachEntry, Json.string source.text) ::
          (bodyEntries key index fields).map (Prod.map id render))).Nodup := by
        rw [Entries.keys_cons, keys_map_render]
        exact nodup_keys_bodyEntries distinct plain
      have body := bodyReads_render plain fun entry member =>
        inside _ (mem_parts_of_mem_bodyEntries member)
      rw [render_each]
      have found : Entries.get? ((eachEntry, Json.string source.text) ::
          (bodyEntries key index fields).map (Prod.map id render)) eachEntry =
            some (.string source.text) := if_pos rfl
      refine (reads_each_iff shallow found (Entries.length_under_le_one nodup _)
        (Entries.length_under_le_one nodup _)).mpr ⟨source, parsed, ⟨key, index, fields⟩, ?_, rfl⟩
      exact (bodyReads_ignored_iff (by decide) (by decide) isReserved_eachEntry).mpr body

end Render

/-- The rules that are read from documents are the well-formed ones: what is read is well-formed,
and a well-formed rule is what is read from the document that spells it out. -/
theorem ofJson_image (limit : Nat) (rule : Rule) :
    (∀ value : Json, value.DistinctKeys → Eval.result (ofJson limit value) = .ok rule →
        rule.WellFormed limit) ∧
      (rule.WellFormed limit → rule.render.DistinctKeys ∧
        Eval.result (ofJson limit rule.render) = .ok rule) := by
  constructor
  · intro value distinct read
    have room := nesting_of_reads read
    exact wellFormed_iff.mpr ⟨every_regular_of_reads distinct read, by omega⟩
  · intro well
    obtain ⟨regular, room⟩ := wellFormed_iff.mp well
    exact ⟨distinctKeys_render regular, reads_render regular (by omega)⟩

/-- A repeating rule with all its parts, out of order and with an entry that is ignored; `$key` is
also the key of an entry outside it. The innermost parts lie just within the limit. -/
theorem ofJson_image_rows :
    let written : Json := .object [("$key", .string ":r"),
      ("out", .object [("n", .object []), ("$index", .string "1"), ("$note", .null),
        ("$each", .string "$.rows.:r"), (":r", .string "t"), ("$key", .string "$.id")])]
    let rule : Rule := .object [("$key", .text ":r"),
      ("out", .each ⟨[.key "rows", .var ":r"]⟩ (some (.path ⟨[.key "id"]⟩)) (some (.text "1"))
        [("n", .object []), (":r", .text "t")])]
    Eval.result (ofJson 2 written) = .ok rule ∧ rule.WellFormed 2 ∧
      Eval.result (ofJson 2 rule.render) = .ok rule := by
  intro written rule
  have distinct : written.DistinctKeys := by
    simp only [written, Json.DistinctKeys, Json.DistinctKeysEntries]
    decide
  have read : Eval.result (ofJson 2 written) = .ok rule := by decide +kernel
  have well := (ofJson_image 2 rule).1 written distinct read
  exact ⟨read, well, ((ofJson_image 2 rule).2 well).2⟩

end Rule

end Reshape
