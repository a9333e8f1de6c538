import Reshape.Proofs.Outputs

/-!
# Reserved keys of collected items

The fields of a repeating rule are read without the reserved ones, and the reserved ones are left
out once more when outcomes are collected. Afterwards the entry around the rule substitutes its
environment in the collected items, their keys included. A field that stands under a variable then
moves to the text of the value bound to the variable, and nothing looks at this text any more: it
can be reserved. `Env.Reveals` is the condition under which it is.

* `Env.mem_keys_substEntries_iff`: the keys that substitution writes.
* `Rule.item_of_collected`: a collected item is made of the fields evaluated for an item of the
  path.
* `Reshaper.hasReservedKey_iff_reveals`: which items have a reserved key in the end.
-/

namespace Reshape

/-! ## Keys that are written -/

/-- What a list of computations yields is yielded by one of them. -/
theorem mem_of_mapM_eq_ok {α β : Type} {next : α → Except Error β} {inputs : List α}
    {outputs : List β} (succeeds : inputs.mapM next = .ok outputs) :
    ∀ output ∈ outputs, ∃ input ∈ inputs, next input = .ok output := by
  have alike := forall₂_of_mapM_eq_ok succeeds
  clear succeeds
  induction alike with
  | nil => exact nofun
  | cons computed _ ih =>
    refine List.forall_mem_cons.mpr ⟨⟨_, List.mem_cons_self, computed⟩, fun output member => ?_⟩
    obtain ⟨origin, inside, same⟩ := ih output member
    exact ⟨origin, List.mem_cons_of_mem _ inside, same⟩

theorem Entries.mem_keys_insert_iff {α : Type} {entries : Entries α} {key other : String}
    {value : α} : other ∈ keys (insert entries key value) ↔ other ∈ keys entries ∨ key = other := by
  rw [keys_insert]
  split
  · next known => exact ⟨Or.inl, fun either => either.elim id fun same => same ▸ known⟩
  · rw [List.mem_append, List.mem_singleton, eq_comm]

/-- A key is there after a write if it was before, or if it is the one that was written. -/
theorem Missing.mem_keys_put_iff {missing : Missing} {written : Entries Json} {key other : String}
    {value : Option Json} :
    other ∈ Entries.keys (missing.put written key value).value ↔
      other ∈ Entries.keys written ∨ key = other ∧ (missing.written? value).isSome = true := by
  cases value with
  | some value =>
    rw [value_put_some, Entries.mem_keys_insert_iff, written?_some]
    simp
  | none =>
    cases missing with
    | asNull =>
      rw [value_put_asNull_none, Entries.mem_keys_insert_iff]
      simp [written?]
    | omitted =>
      rw [value_put_omitted_none]
      simp [written?]

namespace Env

variable {env : Env} {missing : Missing}

/-- Substitution writes the keys that it makes of those of entries with a value. -/
theorem mem_keys_substEntries_iff {entries : List (String × Json)} {written : Entries Json}
    {key : String} :
    key ∈ Entries.keys (env.substEntries missing written entries).value ↔
      key ∈ Entries.keys written ∨ ∃ entry ∈ entries, (env.substKey entry.1).value = some key ∧
        (missing.written? (env.subst missing entry.2).value).isSome = true := by
  induction entries generalizing written with
  | nil =>
    rw [value_substEntries_nil]
    simp
  | cons entry rest ih =>
    obtain ⟨name, value⟩ := entry
    rw [value_substEntries_cons]
    cases substituted : (env.substKey name).value with
    | none =>
      dsimp only
      rw [ih]
      simp [substituted]
    | some moved =>
      dsimp only
      rw [ih, Missing.mem_keys_put_iff, or_assoc]
      simp [substituted]

/-- What substitution writes is what it makes of the value of an entry. -/
theorem value_of_mem_substEntries {entries : List (String × Json)} {written : Entries Json}
    {field : String × Json} (member : field ∈ (env.substEntries missing written entries).value) :
    field ∈ written ∨
      ∃ entry ∈ entries, field.2 = Json.orNull (env.subst missing entry.2).value := by
  induction entries generalizing written with
  | nil =>
    rw [value_substEntries_nil] at member
    exact Or.inl member
  | cons entry rest ih =>
    obtain ⟨name, value⟩ := entry
    rw [value_substEntries_cons] at member
    cases substituted : (env.substKey name).value with
    | none =>
      rw [substituted] at member
      rcases ih member with old | ⟨entry, inside, same⟩
      · exact Or.inl old
      · exact Or.inr ⟨entry, List.mem_cons_of_mem _ inside, same⟩
    | some moved =>
      rw [substituted] at member
      rcases ih member with before | ⟨entry, inside, same⟩
      · rcases missing.value_put_cases written moved (env.subst missing value).value with
          ⟨inserted, found, put⟩ | put
        · rw [put] at before
          rcases Entries.mem_of_mem_insert before with rfl | old
          · exact Or.inr ⟨_, List.mem_cons_self, (Missing.orNull_of_written? found).symm⟩
          · exact Or.inl old
        · rw [put] at before
          exact Or.inl before
      · exact Or.inr ⟨entry, List.mem_cons_of_mem _ inside, same⟩

/-- The variable `name` is bound to a value whose text as a key is reserved. -/
def Reveals (env : Env) (name : String) : Prop :=
  isReference name = true ∧ ∃ value ∈ env.get? name, isReserved value.asKey = true

/-- Substitution makes a reserved key of one that is not only by such a variable. -/
theorem reveals_iff {name : String} (plain : isReserved name = false) :
    env.Reveals name ↔ ∃ key, (env.substKey name).value = some key ∧ isReserved key = true := by
  unfold Reveals
  rw [value_substKey]
  cases reference : isReference name with
  | false =>
    simp [plain]
  | true =>
    simp

/-- Substitution in fields writes one of them under a reserved key. -/
def RevealsIn (env : Env) (missing : Missing) (fields : Entries Json) : Prop :=
  ∃ field ∈ fields, env.Reveals field.1 ∧
    (missing.written? (env.subst missing field.2).value).isSome = true

/-- An object after substitution has a reserved key exactly if a field under such a variable was
written, where the object had none before. -/
theorem exists_reserved_iff {fields : Entries Json}
    (plain : ∀ field ∈ fields, isReserved field.1 = false) :
    (∃ key ∈ Entries.keys (env.substEntries missing [] fields).value, isReserved key = true) ↔
      env.RevealsIn missing fields := by
  constructor
  · rintro ⟨key, member, reserved⟩
    rcases mem_keys_substEntries_iff.mp member with none | ⟨field, inside, moved, written⟩
    · exact absurd none List.not_mem_nil
    · exact ⟨field, inside, (reveals_iff (plain field inside)).mpr ⟨key, moved, reserved⟩, written⟩
  · rintro ⟨field, inside, reveals, written⟩
    obtain ⟨key, moved, reserved⟩ := (reveals_iff (plain field inside)).mp reveals
    exact ⟨key, mem_keys_substEntries_iff.mpr (Or.inr ⟨field, inside, moved, written⟩), reserved⟩

end Env

/-! ## Items that are collected -/

namespace Json

/-- The items of an array, or the values of the entries of an object. -/
def contents : Json → List Json
  | .array items => items
  | .object entries => entries.map Prod.snd
  | _ => []

/-- A key of the object is reserved. -/
def HasReservedKey (value : Json) : Prop := ∃ key ∈ value.keys, isReserved key = true

end Json

namespace Outcome

theorem output_of_mem_putAll {outcomes : List Outcome} {written : Entries Json}
    {entry : String × Json} (member : entry ∈ (putAll written outcomes).value) :
    entry ∈ written ∨ ∃ outcome ∈ outcomes, entry.2 = outcome.output := by
  induction outcomes generalizing written with
  | nil => exact Or.inl member
  | cons outcome rest ih =>
    rw [value_putAll_cons] at member
    cases found : outcome.key with
    | none =>
      rw [found] at member
      rcases ih member with old | ⟨later, inside, same⟩
      · exact Or.inl old
      · exact Or.inr ⟨later, List.mem_cons_of_mem _ inside, same⟩
    | some key =>
      rw [found] at member
      rcases ih member with before | ⟨later, inside, same⟩
      · rcases Entries.mem_of_mem_insert before with rfl | old
        · exact Or.inr ⟨outcome, List.mem_cons_self, rfl⟩
        · exact Or.inl old
      · exact Or.inr ⟨later, List.mem_cons_of_mem _ inside, same⟩

/-- Outcomes are collected into an object or an array, and after a substitution there every item is
what the substitution makes of the output of an outcome. -/
theorem subst_collect (env : Env) (missing : Missing) (keyed : Bool) (outcomes : List Outcome) :
    ∃ collected, (env.subst missing (collect keyed outcomes)).value = some collected ∧
      collected.kind = (if keyed then .object else .array) ∧
      ∀ item ∈ collected.contents, ∃ outcome ∈ outcomes,
        item = Json.orNull (env.subst missing outcome.output).value := by
  cases keyed with
  | true =>
    refine ⟨_, env.value_subst_object missing (putAll [] outcomes).value, rfl,
      fun item member => ?_⟩
    obtain ⟨field, moved, rfl⟩ := List.mem_map.mp member
    obtain ⟨entry, inside, same⟩ :=
      (Env.value_of_mem_substEntries moved).resolve_left List.not_mem_nil
    obtain ⟨outcome, origin, output⟩ :=
      (output_of_mem_putAll inside).resolve_left List.not_mem_nil
    exact ⟨outcome, origin, output ▸ same⟩
  | false =>
    have collected : collect false outcomes = .array ((sorted outcomes).map output) :=
      value_toArray outcomes
    rw [collected, Env.value_subst_array]
    refine ⟨_, rfl, rfl, fun item member => ?_⟩
    obtain ⟨_, inside, rfl⟩ := List.mem_map.mp member
    obtain ⟨outcome, origin, rfl⟩ := List.mem_map.mp inside
    exact ⟨outcome, (perm_sorted outcomes).mem_iff.mp origin, rfl⟩

end Outcome

namespace Rule

variable {missing : Missing} {context : Context} {source : Path} {key index : Option Rule}
  {fields : List (String × Rule)}

/-- Rules write entries under their own keys, and under all of them if missing values are written
as `null`. -/
theorem mem_keys_of_evalEntries {rules : List (String × Rule)} {written evaluated : Entries Json}
    (succeeds : Eval.result (evalEntries missing rules context written) = .ok evaluated) :
    (∀ name ∈ Entries.keys evaluated, name ∈ Entries.keys written ∨ name ∈ Entries.keys rules) ∧
      (missing = .asNull → ∀ name, name ∈ Entries.keys written ∨ name ∈ Entries.keys rules →
        name ∈ Entries.keys evaluated) := by
  induction rules generalizing written with
  | nil =>
    rw [result_evalEntries_nil] at succeeds
    cases succeeds
    exact ⟨fun name => Or.inl, fun _ name either => either.resolve_right List.not_mem_nil⟩
  | cons entry rest ih =>
    obtain ⟨own, rule⟩ := entry
    rw [result_evalEntries_cons] at succeeds
    obtain ⟨value, _, succeeds⟩ := of_bind_eq_ok succeeds
    obtain ⟨known, all⟩ := ih succeeds
    refine ⟨fun name member => ?_, fun null name either => all null name ?_⟩
    · rcases known name member with before | later
      · rcases Missing.mem_keys_put_iff.mp before with old | ⟨rfl, _⟩
        · exact Or.inl old
        · exact Or.inr List.mem_cons_self
      · exact Or.inr (List.mem_cons_of_mem _ later)
    · have put : ∀ value, (missing.written? value).isSome = true := by
        intro value
        rw [null]
        cases value <;> rfl
      rcases either with old | member
      · exact Or.inl (Missing.mem_keys_put_iff.mpr (Or.inl old))
      · rcases List.mem_cons.mp member with rfl | later
        · exact Or.inl (Missing.mem_keys_put_iff.mpr (Or.inr ⟨rfl, put _⟩))
        · exact Or.inr later

/-- Where no rule stands under a reserved key, nothing is written under one. -/
theorem plain_of_evalEntries {rules : List (String × Rule)} {evaluated : Entries Json}
    (plain : ∀ rule ∈ rules, isReserved rule.1 = false)
    (succeeds : Eval.result (evalEntries missing rules context []) = .ok evaluated) :
    ∀ field ∈ evaluated, isReserved field.1 = false := by
  intro field member
  have known := (mem_keys_of_evalEntries succeeds).1 field.1 (List.mem_map_of_mem member)
  obtain ⟨rule, inside, same⟩ := List.mem_map.mp (known.resolve_left List.not_mem_nil)
  rw [← same]
  exact plain rule inside

/-- The outcomes of a repeating rule have the fields that are evaluated for its items. -/
theorem fields_of_outcomes {items : List Item} {outcomes : List Outcome}
    (succeeds : items.mapM (fun item => resultBody missing key index fields (context.enter item)) =
      .ok outcomes) :
    ∀ outcome ∈ outcomes, ∃ item ∈ items,
      Eval.result (evalEntries missing fields (context.enter item) []) = .ok outcome.fields := by
  intro outcome member
  obtain ⟨item, listed, body⟩ := mem_of_mapM_eq_ok succeeds outcome member
  obtain ⟨key, _, body⟩ := of_bind_eq_ok body
  obtain ⟨index, _, body⟩ := of_bind_eq_ok body
  obtain ⟨written, evaluated, same⟩ := of_bind_eq_ok body
  obtain rfl := Except.ok.inj same
  exact ⟨item, listed, evaluated⟩

/-- A repeating rule under an entry comes to an object or an array, and every item of it is made of
the fields that are evaluated for an item of the path: they are collected without the reserved ones,
and then the environment around the rule is substituted. -/
theorem item_of_collected {entry : String} {written : Entries Json}
    (plain : ∀ field ∈ fields, isReserved field.1 = false)
    (succeeds : Eval.result (evalEntries missing [(entry, .each source key index fields)] context
      []) = .ok written) :
    ∃ collected, written = [(entry, collected)] ∧
      collected.kind = (if key.isSome then .object else .array) ∧
      ∀ item ∈ collected.contents, ∃ items origin evaluated,
        (source.items context.root context.env).result = .ok items ∧ origin ∈ items ∧
        Eval.result (evalEntries missing fields (context.enter origin) []) = .ok evaluated ∧
        item = .object (context.env.substEntries missing [] evaluated).value := by
  rw [result_evalEntries_cons, result_eval_each] at succeeds
  obtain ⟨value, repeated, succeeds⟩ := of_bind_eq_ok succeeds
  obtain ⟨items, listed, repeated⟩ := of_bind_eq_ok repeated
  obtain ⟨outcomes, bodies, same⟩ := of_bind_eq_ok repeated
  obtain rfl := Except.ok.inj same
  rw [result_evalEntries_nil] at succeeds
  obtain ⟨collected, substituted, kind, contents⟩ :=
    Outcome.subst_collect context.env missing key.isSome outcomes
  refine ⟨collected, ?_, kind, fun item member => ?_⟩
  · rw [← Except.ok.inj succeeds, Env.value_substOption, Option.bind_some, substituted]
    rfl
  · obtain ⟨outcome, inside, rfl⟩ := contents item member
    obtain ⟨origin, fromPath, evaluated⟩ := fields_of_outcomes bodies outcome inside
    refine ⟨items, origin, outcome.fields, listed, fromPath, evaluated, ?_⟩
    have kept : outcome.output = .object outcome.fields :=
      congrArg Json.object (List.filter_eq_self.mpr fun field member =>
        congrArg not (plain_of_evalEntries plain evaluated field member))
    rw [kept, Env.value_subst_object]
    rfl

/-- The fields of a repeating rule that was read are not reserved. -/
theorem plain_fields_of_ofJsonAt {limit depth : Nat} {value : Json}
    (read : Eval.result (ofJsonAt limit depth value) = .ok (.each source key index fields)) :
    ∀ field ∈ fields, isReserved field.1 = false := by
  intro field member
  cases ruleOf_of_ofJsonAt read with
  | each _ _ body =>
    obtain ⟨entry, inside, same, _⟩ := mem_of_entryOf body.fields member
    have kept := (List.mem_filter.mp inside).2
    rw [same]
    simpa using kept

end Rule

namespace Reshaper

variable {reshaper : Reshaper} {limit : Nat} {written document : Json} {env : Env} {path : Path}
  {key index : Option Rule} {fields : List (String × Rule)} {value : Option Json}

/-- A repeating rule under an entry comes to an object or an array of objects. Such an object has a
reserved key exactly if a field that was evaluated for it and has a value stands under a variable
that is bound, around the rule, to a value whose text is reserved. So there is none where no field
of the rule stands under such a variable, and where one does, missing values being written as
`null`, every object has one. -/
theorem hasReservedKey_iff_reveals
    (read : Eval.result (Rule.ofJson limit written) = .ok (.each path key index fields))
    (succeeds : Eval.result (reshaper.eval (.object [("out", .each path key index fields)])
      document env) = .ok value) :
    ∃ collected, value = some (.object [("out", collected)]) ∧
      collected.kind = (if key.isSome then .object else .array) ∧
      ∀ item ∈ collected.contents, item.kind = .object ∧
        (∃ items origin evaluated, (path.items document env).result = .ok items ∧
          origin ∈ items ∧
          Eval.result (Rule.evalEntries reshaper.config.missing fields
            ((Context.ofDocument document env).enter origin) []) = .ok evaluated ∧
          (item.HasReservedKey ↔ env.RevealsIn reshaper.config.missing evaluated)) ∧
        ((∀ name ∈ Entries.keys fields, ¬ env.Reveals name) → ¬ item.HasReservedKey) ∧
        (reshaper.config.missing = .asNull →
          (∃ name ∈ Entries.keys fields, env.Reveals name) → item.HasReservedKey) := by
  have plain := Rule.plain_fields_of_ofJsonAt read
  unfold eval at succeeds
  rw [Rule.result_eval_object] at succeeds
  obtain ⟨entries, evaluated, same⟩ := of_bind_eq_ok succeeds
  obtain ⟨collected, rfl, kind, contents⟩ := Rule.item_of_collected plain evaluated
  refine ⟨collected, (Except.ok.inj same).symm, kind, fun item member => ?_⟩
  obtain ⟨items, origin, evaluated, listed, fromPath, fieldsOk, rfl⟩ := contents item member
  have exactly : Json.HasReservedKey (.object (env.substEntries reshaper.config.missing []
      evaluated).value) ↔ env.RevealsIn reshaper.config.missing evaluated :=
    Env.exists_reserved_iff (Rule.plain_of_evalEntries plain fieldsOk)
  obtain ⟨known, all⟩ := Rule.mem_keys_of_evalEntries fieldsOk
  refine ⟨rfl, ⟨items, origin, evaluated, listed, fromPath, fieldsOk, exactly⟩,
    fun none reserved => ?_, fun null ⟨name, inside, reveals⟩ => exactly.mpr ?_⟩
  · obtain ⟨field, inside, reveals, _⟩ := exactly.mp reserved
    have name := (known field.1 (List.mem_map_of_mem inside)).resolve_left List.not_mem_nil
    exact none field.1 name reveals
  · obtain ⟨field, member, rfl⟩ := List.mem_map.mp (all null name (Or.inr inside))
    refine ⟨field, member, reveals, ?_⟩
    rw [null]
    cases (env.subst .asNull field.2).value <;> rfl

/-- An object with a key, where the field under the bound variable has a value for the first item
only. -/
theorem hasReservedKey_iff_reveals_keyed :
    let reshaper : Reshaper := ⟨{ missing := .omitted }, by decide⟩
    let written : Json := .object [("$each", .string "$.m"), ("$key", .string "$.$key"),
      ("$no", .string "$"), (":k", .string "$.$value.v")]
    let path : Path := ⟨[.key "m"]⟩
    let key : Rule := .path ⟨[.key "$key"]⟩
    let fields : List (String × Rule) := [(":k", .path ⟨[.key "$value", .key "v"]⟩)]
    let document : Json := .object [("m", .object [("p", .object [("v", .ofNat 1)]), ("q", .null)])]
    let env : Env := ⟨[(":k", .string "$x")]⟩
    let first : Json := .object [("$x", .ofNat 1)]
    let second : Json := .object []
    Eval.result (Rule.ofJson 128 written) = .ok (.each path (some key) none fields) ∧
      Eval.result (reshaper.eval (.object [("out", .each path (some key) none fields)]) document
        env) = .ok (some (.object [("out", .object [("p", first), ("q", second)])])) ∧
      ∀ item ∈ [first, second], ∃ items origin evaluated,
        (path.items document env).result = .ok items ∧ origin ∈ items ∧
          Eval.result (Rule.evalEntries .omitted fields
            ((Context.ofDocument document env).enter origin) []) = .ok evaluated ∧
          (item.HasReservedKey ↔ env.RevealsIn .omitted evaluated) := by
  intro reshaper written path key fields document env first second
  have read : Eval.result (Rule.ofJson 128 written) = .ok (.each path (some key) none fields) := by
    decide +kernel
  have succeeds : Eval.result (reshaper.eval (.object [("out", .each path (some key) none fields)])
      document env) = .ok (some (.object [("out", .object [("p", first), ("q", second)])])) := by
    decide +kernel
  obtain ⟨collected, same, _, contents⟩ := hasReservedKey_iff_reveals read succeeds
  have same : Json.object [("p", first), ("q", second)] = collected :=
    congrArg Prod.snd (List.singleton_inj.mp (Json.object.inj (Option.some.inj same)))
  exact ⟨read, succeeds, fun item member => (contents item (same ▸ member)).2.1⟩

/-- A field under a variable that is bound to the text of a reserved key: what is collected has the
reserved key. -/
theorem not_reserved_free_bound :
    let written : Json := .object [("$each", .string "$.a"), (":k", .string "t")]
    let rule : Rule := .each ⟨[.key "a"]⟩ none none [(":k", .text "t")]
    let document : Json := .object [("a", .array [.ofNat 1])]
    let env : Env := ⟨[(":k", .string "$key")]⟩
    let collected : Json := .array [.object [("$key", .string "t")]]
    Eval.result (Rule.ofJson 128 written) = .ok rule ∧
      Eval.result ((default : Reshaper).eval (.object [("out", rule)]) document env) =
        .ok (some (.object [("out", collected)])) ∧
      ¬ ∀ item ∈ collected.contents, ∀ key ∈ item.keys, isReserved key = false := by
  intro written rule document env collected
  refine ⟨by decide +kernel, by decide +kernel, fun free => ?_⟩
  have reserved : isReserved "$key" = false :=
    free _ List.mem_cons_self "$key" List.mem_cons_self
  exact absurd reserved (by decide)

/-- Nothing has to be bound from outside: a repeating rule around this one binds the variable to a
key of the document. -/
example :
    Eval.result ((default : Reshaper).transform
        (.object [("m", .object [("$key", .ofNat 1)])])
        (.object [("out", .object [("$each", .string "$.m.:k"),
          ("in", .object [("$each", .string "$.m"), (":k", .string "t")])])])) =
      .ok (.object [("out", .array [.object [("in", .array [.object [("$key", .string "t")]])]])]) :=
  by decide +kernel

end Reshaper

end Reshape
