import Reshape.Proofs.Dropping
import Reshape.Proofs.Listing
import Reshape.Proofs.Places
import Reshape.Proofs.Reading

/-!
# Bodies written inline

The fields of a repeating rule can be written into the rule itself or one level deeper, as an object
under a field of its own. The two come to the same fields, but these fields meet different
environments when keys are substituted. The object one level deeper is the value of a field, so the
environment of the item is substituted in its keys. The keys of fields that stand in the rule itself
are substituted by the entry around the whole rule only, where the variable of the path is no longer
bound: a field under this variable is dropped.

* `Rule.bodies` lists the fields of all items, from which both outputs are made
  (`Reshaper.result_transform_of_bodies`).
* `ItemFields.inlined_eq_nested_iff`: the outputs agree on an item exactly if all that is dropped is
  redundant.
-/

namespace Reshape

/-! ## Fields of all items -/

/-- Where nothing is bound outside, an item binds the one variable that is left. -/
theorem Env.bindsOne_of_items {path : Path} {root : Json} {items : List Item}
    (listed : Eval.result (path.items root .empty) = .ok items) :
    ∀ item ∈ items, item.env.BindsOne := by
  intro item member name other bound otherBound
  have left := (Path.binds_of_items listed member bound).resolve_left nofun
  have otherLeft := (Path.binds_of_items listed member otherBound).resolve_left nofun
  exact List.singleton_inj.mp (left.symm.trans otherLeft)

/-- The fields that a repeating rule writes for an item, and the environment of the item. -/
structure ItemFields where
  env : Env
  fields : Entries Json
deriving DecidableEq

namespace Rule

variable {missing : Missing} {source : Path} {fields : List (String × Rule)} {context : Context}

/-- The fields of an item. -/
def bodyAt (missing : Missing) (fields : List (String × Rule)) (context : Context) (item : Item) :
    Except Error ItemFields := do
  let written ← (evalEntries missing fields (context.enter item) []).result
  return ⟨item.env, written⟩

/-- The fields of all items. -/
def bodies (missing : Missing) (source : Path) (fields : List (String × Rule)) (context : Context) :
    Except Error (List ItemFields) := do
  let items ← (source.items context.root context.env).result
  items.mapM (bodyAt missing fields context)

/-- What is known of the fields of an item, wherever no reference occurs in the document. -/
structure Known (rules : List (String × Rule)) (body : ItemFields) : Prop where
  one : body.env.BindsOne
  bound : Json.settled.HoldsEnv body.env
  distinct : (Entries.keys body.fields).Nodup
  fields : ∀ field ∈ body.fields, field.1 ∈ Entries.keys rules ∧ Json.settled.Holds field.2

theorem known_of_bodies {document : Json} (settled : document.Settled) :
    Agree (fun bodies => ∀ body ∈ bodies, Known fields body)
      (bodies missing source fields (.ofDocument document .empty))
      (bodies missing source fields (.ofDocument document .empty)) := by
  have listed : Agree (fun items => ∀ item ∈ items,
      Json.settled.HoldsItem item ∧ item.env.BindsOne)
      (source.items document .empty).result (source.items document .empty).result :=
    Agree.refl fun items listed item member =>
      ⟨Json.Family.holdsItem_of_items settled Json.Family.holdsEnv_empty listed item member,
        Env.bindsOne_of_items listed item member⟩
  refine Agree.bind listed fun items known => Agree.mapM fun item member => ?_
  obtain ⟨holds, one⟩ := known item member
  have facts : ∀ written : Entries Json,
      (evalEntries missing fields ((Context.ofDocument document .empty).enter item) []).result =
        .ok written → Known fields ⟨item.env, written⟩ := by
    intro written evaluated
    have nothing : (Entries.keys ([] : Entries Json)).Nodup := List.nodup_nil
    obtain ⟨distinct, origin⟩ := Json.Family.mem_of_evalEntries holds.env nothing evaluated
    refine ⟨one, holds.env, distinct, fun field member => ?_⟩
    exact (origin field member).resolve_left List.not_mem_nil
  exact Agree.bind (Agree.refl facts) fun written known => Agree.of_ok known

theorem result_evalEntries_single (name : String) (rule : Rule) :
    Eval.result (evalEntries missing [(name, rule)] context []) =
      (eval missing rule context).result >>= fun value =>
        .ok (missing.put [] name (context.env.substOption missing value).value).value := by
  rw [result_evalEntries_cons]
  refine bind_congr fun value => ?_
  exact result_evalEntries_nil missing context _

/-- The fields of a body stand in the repeating rule itself. -/
theorem result_evalEntries_inlined (item : Item) :
    Eval.result (evalEntries missing fields (context.enter item) []) =
      bodyAt missing fields context item >>= fun body => .ok body.fields := by
  unfold bodyAt
  cases (evalEntries missing fields (context.enter item) []).result with
  | error error => rfl
  | ok written => rfl

/-- The fields of a body stand in an object under a field. -/
theorem result_evalEntries_nested (item : Item) :
    Eval.result (evalEntries missing [("x", .object fields)] (context.enter item) []) =
      bodyAt missing fields context item >>= fun body =>
        .ok [("x", .object (body.env.substEntries missing [] body.fields).value)] := by
  rw [result_evalEntries_single, result_eval_object]
  unfold bodyAt
  cases (evalEntries missing fields (context.enter item) []).result with
  | error error => rfl
  | ok written =>
    have nested : ((context.enter item).env.substOption missing (some (.object written))).value =
        some (.object (item.env.substEntries missing [] written).value) :=
      Env.value_subst_object _ _ _
    change Except.ok (missing.put [] "x" ((context.enter item).env.substOption missing
      (some (.object written))).value).value = _
    rw [nested]
    rfl

/-- Where the fields of a repeating rule are built from those of a body, so is the array. -/
theorem result_eval_each_of_bodies {others : List (String × Rule)}
    {build : ItemFields → Entries Json}
    (same : ∀ item : Item, (evalEntries missing others (context.enter item) []).result =
      bodyAt missing fields context item >>= fun body => .ok (build body)) :
    Eval.result (eval missing (.each source none none others) context) =
      bodies missing source fields context >>= fun bodies =>
        .ok (some (.array (bodies.map fun body => Outcome.output ⟨none, none, build body⟩))) := by
  have outcome : ∀ item : Item, resultBody missing none none others (context.enter item) =
      bodyAt missing fields context item >>= fun body => .ok ⟨none, none, build body⟩ := by
    intro item
    unfold resultBody
    rw [result_evalOption_none, same]
    cases bodyAt missing fields context item with
    | error error => rfl
    | ok body => rfl
  rw [result_eval_each, bodies, bind_assoc]
  refine bind_congr fun items => ?_
  rw [mapM_of_bind outcome, bind_assoc]
  refine bind_congr fun bodies => ?_
  have sorted : Outcome.sorted (bodies.map fun body => ⟨none, none, build body⟩) =
      bodies.map fun body => ⟨none, none, build body⟩ := by
    refine Outcome.sorted_of_unplaced fun outcome member => ?_
    obtain ⟨body, _, rfl⟩ := List.mem_map.mp member
    rfl
  change Except.ok (some (Outcome.toArray _).value) = _
  rw [Outcome.value_toArray, sorted, List.map_map]
  rfl

end Rule

/-! ## Both outputs -/

section Outputs

variable {missing : Missing} {rules : List (String × Rule)} {body : ItemFields}

/-- The object that is left of the fields of an item where they stand in the repeating rule. -/
def ItemFields.inlined (body : ItemFields) : Json := .object (Env.visible body.fields)

/-- The object that is made of the fields of an item where they stand in a field. -/
def ItemFields.nested (missing : Missing) (body : ItemFields) : Json :=
  .object (body.env.substEntries missing [] body.fields).value

theorem ItemFields.value_subst_inlined (known : Rule.Known rules body)
    (plain : ∀ rule ∈ rules, isReserved rule.1 = false) :
    (Env.empty.subst missing (Outcome.output ⟨none, none, body.fields⟩)).value =
      some body.inlined := by
  have output : Outcome.output ⟨none, none, body.fields⟩ = .object body.fields := by
    refine congrArg Json.object (List.filter_eq_self.mpr fun field member => ?_)
    obtain ⟨rule, inside, same⟩ := List.mem_map.mp (known.fields field member).1
    rw [← same, plain rule inside]
    rfl
  have parts : ∀ field ∈ body.fields,
      (Env.empty.subst missing field.2).value = some field.2 := fun field member =>
    Json.Settled.value_subst (known.fields field member).2
  have distinct : (Entries.keys ([] ++ Env.visible body.fields)).Nodup :=
    (List.filter_sublist.map Prod.fst).nodup known.distinct
  rw [output, Env.value_subst_object, Env.value_substEntries_of_parts parts,
    Env.rekey_of_unbound fun _ _ _ => rfl, Entries.insertAll_of_nodup_keys distinct]
  rfl

theorem ItemFields.settled_nested (known : Rule.Known rules body) :
    (body.nested missing).Settled := by
  have holds : ∀ value ∈ (body.env.subst missing (.object body.fields)).value,
      Json.settled.Holds value := Json.Family.holds_subst known.bound (.object body.fields)
  rw [Env.value_subst_object] at holds
  exact holds _ rfl

theorem ItemFields.value_subst_nested (known : Rule.Known rules body) :
    (Env.empty.subst missing (Outcome.output ⟨none, none, [("x", body.nested missing)]⟩)).value =
      some (.object [("x", body.nested missing)]) := by
  have notReserved : isReserved "x" = false := by decide
  have notReference : isReference "x" = false := by decide
  have output : Outcome.output ⟨none, none, [("x", body.nested missing)]⟩ =
      .object [("x", body.nested missing)] :=
    congrArg Json.object (List.filter_cons_of_pos (congrArg not notReserved))
  have settled : Json.settled.Fields [("x", body.nested missing)] :=
    (Json.Family.Fields.nil Json.settled).insert notReference (settled_nested known)
  rw [output]
  exact Json.Settled.value_subst settled.holds

/-- Both outputs agree on an item exactly if all that is dropped is redundant. -/
theorem ItemFields.inlined_eq_nested_iff (known : Rule.Known rules body) :
    body.inlined = body.nested missing ↔ body.env.Redundant body.fields := by
  have parts : ∀ field ∈ body.fields,
      (body.env.subst missing field.2).value = some field.2 := fun field member =>
    Json.Settled.value_subst (known.fields field member).2
  rw [inlined, nested, Env.value_substEntries_of_parts parts, Json.object.injEq, eq_comm]
  exact Env.insertAll_rekey_eq_visible_iff known.one known.distinct

end Outputs

/-! ## Reading both rules -/

/-- The repeating rule of a path with some fields. -/
def Json.repeating (source : String) (fields : List (String × Json)) : Json :=
  .object ((eachEntry, .string source) :: fields)

namespace Rule

variable {limit depth : Nat}

theorem not_readFrom {source : String} {fields : List (String × Json)} {name : String}
    (plain : ∀ field ∈ fields, isReserved field.1 = false) (reserved : isReserved name = true)
    (other : name ≠ eachEntry) {rule : Rule} :
    ¬ ReadFrom limit depth ((eachEntry, .string source) :: fields) name rule := by
  rintro ⟨value, member, _⟩
  rcases List.mem_cons.mp member with same | inside
  · exact other (congrArg Prod.fst same)
  · rw [plain _ inside] at reserved
    cases reserved

theorem each_of_repeating {source : String} {fields : List (String × Json)} {rule : Rule}
    (plain : ∀ field ∈ fields, isReserved field.1 = false)
    (read : Eval.result (ofJsonAt limit depth (Json.repeating source fields)) = .ok rule) :
    ∃ path rules, Path.ofText source = .ok path ∧
      List.Forall₂ (EntryOf limit (depth + 1)) fields rules ∧
        rule = .each path none none rules := by
  have found : Entries.get? ((eachEntry, .string source) :: fields) eachEntry =
      some (.string source) := if_pos rfl
  have shallow := shallow_of_ofJsonAt read
  unfold Json.repeating at read
  rw [result_ofJsonAt_each shallow found] at read
  obtain ⟨path, parsed, read⟩ := of_bind_eq_ok read
  obtain ⟨body, inner, read⟩ := of_bind_eq_ok read
  have shape := bodyOf_of_ofJsonBody inner
  have key : body.key = none := Option.eq_none_iff_forall_not_mem.mpr fun rule same =>
    not_readFrom plain isReserved_keyEntry (by decide) (shape.key rule same)
  have index : body.index = none := Option.eq_none_iff_forall_not_mem.mpr fun rule same =>
    not_readFrom plain isReserved_indexEntry (by decide) (shape.index rule same)
  have kept : fields.filter (fun field => !isReserved field.1) = fields :=
    List.filter_eq_self.mpr fun field member => congrArg not (plain field member)
  have related := shape.fields
  rw [fields_cons_of_isReserved isReserved_eachEntry, kept] at related
  refine ⟨path, body.fields, parsed, related, ?_⟩
  rw [← Except.ok.inj read, key, index]

/-- The rule of an object that is not repeating. -/
theorem object_of_plain {body : List (String × Json)} {rule : Rule}
    (plain : ∀ entry ∈ body, isReserved entry.1 = false)
    (read : Eval.result (ofJsonAt limit depth (.object body)) = .ok rule) :
    ∃ rules, List.Forall₂ (EntryOf limit (depth + 1)) body rules ∧ rule = .object rules := by
  have absent : Entries.get? body eachEntry = none := by
    refine Entries.get?_eq_none_iff.mpr fun member => ?_
    obtain ⟨value, member⟩ := Entries.mem_keys_iff.mp member
    have each : isReserved eachEntry = false := plain _ member
    rw [isReserved_eachEntry] at each
    cases each
  rw [result_ofJsonAt_object (shallow_of_ofJsonAt read) absent] at read
  obtain ⟨rules, inner, read⟩ := of_bind_eq_ok read
  exact ⟨rules, entryOf_of_ofJsonEntries inner, (Except.ok.inj read).symm⟩

end Rule

/-- The rules of an output document with one entry. -/
theorem RuleSet.ofJson_single {limit : Nat} {name : String} {value : Json} {rules : RuleSet}
    (read : Eval.result (RuleSet.ofJson limit (.object [(name, value)])) = .ok rules) :
    ∃ rule, rules = ⟨[(name, rule)]⟩ ∧ Eval.result (Rule.ofJsonAt limit 1 value) = .ok rule := by
  rw [Rule.result_ofJson_ruleSet, Rule.result_ofJsonEntries_cons,
    Rule.result_ofJsonEntries_nil] at read
  obtain ⟨entries, inner, read⟩ := of_bind_eq_ok read
  obtain ⟨rule, first, inner⟩ := of_bind_eq_ok inner
  obtain rfl := Except.ok.inj inner
  exact ⟨rule, (Except.ok.inj read).symm, first⟩

namespace Reshaper

variable (reshaper : Reshaper) (input : Json) (source : String) (body : List (String × Json))

/-- The rules of an output document can be read. -/
def Compiles (rules : Json) : Prop := (Eval.result (reshaper.readRules rules)).isOk = true

instance (rules : Json) : Decidable (reshaper.Compiles rules) :=
  inferInstanceAs (Decidable (_ = true))

variable {reshaper} in
theorem Compiles.exists_rules {rules : Json} (compiles : reshaper.Compiles rules) :
    ∃ set, Eval.result (reshaper.readRules rules) = .ok set := by
  unfold Compiles at compiles
  cases read : Eval.result (reshaper.readRules rules) with
  | ok set => exact ⟨set, rfl⟩
  | error error =>
    rw [read] at compiles
    cases compiles

/-- Rules whose only entry repeats a body for the items of a path. -/
def inlinedRules : Json := .object [("out", Json.repeating source body)]

/-- The same with the body as an object under a field. -/
def nestedRules : Json := .object [("out", Json.repeating source [("x", .object body)])]

/-- The fields of the body for all items of the path. -/
def bodies : Except Error (List ItemFields) := do
  let path ← Path.ofText source
  let rules ← (Rule.ofJsonEntries reshaper.config.maxDepth 2 body).result
  Rule.bodies reshaper.config.missing path rules (.ofDocument input .empty)

theorem result_apply_single (name : String) (rule : Rule) :
    Eval.result (reshaper.apply ⟨[(name, rule)]⟩ input) =
      (rule.eval reshaper.config.missing (.ofDocument input .empty)).result >>= fun value =>
        .ok (.object (reshaper.config.missing.put [] name
          (Env.empty.substOption reshaper.config.missing value).value).value) := by
  rw [result_apply, Rule.result_evalEntries_single, bind_assoc]
  rfl

variable {reshaper input source body}

/-- An array of items under one entry, of which each is left as it should be. -/
theorem result_apply_of_bodies {path : Path} {rules others : List (String × Rule)}
    {build : ItemFields → Entries Json} {left : ItemFields → Json} (settled : input.Settled)
    (same : ∀ item : Item, Eval.result (Rule.evalEntries reshaper.config.missing others
      ((Context.ofDocument input .empty).enter item) []) =
        Rule.bodyAt reshaper.config.missing rules (.ofDocument input .empty) item >>= fun body =>
          .ok (build body))
    (leaves : ∀ body, Rule.Known rules body →
      (Env.empty.subst reshaper.config.missing (Outcome.output ⟨none, none, build body⟩)).value =
        some (left body)) :
    Eval.result (reshaper.apply ⟨[("out", .each path none none others)]⟩ input) =
      Rule.bodies reshaper.config.missing path rules (.ofDocument input .empty) >>= fun bodies =>
        .ok (.object [("out", .array (bodies.map left))]) := by
  rw [result_apply_single, Rule.result_eval_each_of_bodies same, bind_assoc]
  cases listed : Rule.bodies reshaper.config.missing path rules (.ofDocument input .empty) with
  | error error => rfl
  | ok bodies =>
    have known := (Rule.known_of_bodies settled).known listed
    have values : (bodies.map fun body => Outcome.output ⟨none, none, build body⟩).map
        (fun item => Json.orNull (Env.empty.subst reshaper.config.missing item).value) =
          bodies.map left := by
      rw [List.map_map]
      refine List.map_congr_left fun body member => ?_
      exact congrArg Json.orNull (leaves body (known body member))
    change Except.ok (Json.object (reshaper.config.missing.put [] "out"
      (Env.empty.subst reshaper.config.missing (.array _)).value).value) = _
    rw [Env.value_subst_array, values]
    rfl

/-- What both rules come to where they compile, in terms of the fields of the body. -/
theorem result_transform_of_bodies (settled : input.Settled)
    (plain : ∀ entry ∈ body, isReserved entry.1 = false)
    (inlined : reshaper.Compiles (inlinedRules source body))
    (nested : reshaper.Compiles (nestedRules source body)) :
    Eval.result (reshaper.transform input (inlinedRules source body)) =
      (reshaper.bodies input source body >>= fun bodies =>
        .ok (.object [("out", .array (bodies.map ItemFields.inlined))])) ∧
    Eval.result (reshaper.transform input (nestedRules source body)) =
      (reshaper.bodies input source body >>= fun bodies =>
        .ok (.object [("out", .array (bodies.map fun body =>
          .object [("x", body.nested reshaper.config.missing)]))])) := by
  obtain ⟨rules, read⟩ := inlined.exists_rules
  obtain ⟨rules', readNested⟩ := nested.exists_rules
  obtain ⟨rule, rfl, readRule⟩ := RuleSet.ofJson_single read
  obtain ⟨path, entries, parsed, related, rfl⟩ := Rule.each_of_repeating plain readRule
  obtain ⟨outer, rfl, readOuter⟩ := RuleSet.ofJson_single readNested
  have plainOuter : ∀ entry ∈ [("x", Json.object body)], isReserved entry.1 = false := by
    intro entry member
    rw [List.mem_singleton.mp member]
    exact (by decide : isReserved "x" = false)
  obtain ⟨path', fields, parsed', relatedOuter, rfl⟩ := Rule.each_of_repeating plainOuter readOuter
  obtain rfl := Except.ok.inj (parsed.symm.trans parsed')
  rcases relatedOuter with _ | @⟨_, ⟨name, inner⟩, _, _, ⟨rfl, readInner⟩, nothing⟩
  cases nothing
  obtain ⟨entries', related', rfl⟩ := Rule.object_of_plain plain readInner
  obtain rfl := Rule.entries_unique (fun entry _ => Rule.unambiguous entry.2) related related'
  have listed : reshaper.bodies input source body =
      Rule.bodies reshaper.config.missing path entries (.ofDocument input .empty) := by
    have inner : Eval.result (Rule.ofJsonEntries reshaper.config.maxDepth 2 body) = .ok entries :=
      Rule.ofJsonEntries_of_entryOf related
    unfold bodies
    rw [parsed, inner]
    rfl
  have plainRules : ∀ rule ∈ entries, isReserved rule.1 = false := by
    intro rule member
    obtain ⟨entry, inside, same, _⟩ := Rule.mem_of_entryOf related member
    rw [same]
    exact plain entry inside
  rw [result_transform, result_transform, read, readNested, listed]
  constructor
  · exact result_apply_of_bodies settled Rule.result_evalEntries_inlined fun body known =>
      ItemFields.value_subst_inlined known plainRules
  · exact result_apply_of_bodies settled Rule.result_evalEntries_nested fun body known =>
      ItemFields.value_subst_nested known

theorem known_of_bodies (settled : input.Settled) {items : List ItemFields}
    (listed : reshaper.bodies input source body = .ok items) :
    ∃ rules, ∀ item ∈ items, Rule.Known rules item := by
  obtain ⟨path, _, listed⟩ := of_bind_eq_ok listed
  obtain ⟨rules, _, listed⟩ := of_bind_eq_ok listed
  exact ⟨rules, (Rule.known_of_bodies settled).known listed⟩

end Reshaper

/-! ## Agreement of both outputs -/

namespace Json

/-- Both values have arrays of one length under `out`. -/
def SameCount (first second : Json) : Prop :=
  ∃ values items, first.child? (.key "out") = some (.array values) ∧
    second.child? (.key "out") = some (.array items) ∧ values.length = items.length

/-- Both values have arrays of one length under `out`, and the items of the first one stand under
`x` in the items of the second one. -/
def Unnests (first second : Json) : Prop :=
  ∃ values items, first.child? (.key "out") = some (.array values) ∧
    second.child? (.key "out") = some (.array items) ∧
    List.Forall₂ (fun value item => item.child? (.key "x") = some value) values items

theorem child?_single (key : String) (value : Json) :
    (Json.object [(key, value)]).child? (.key key) = some value := by
  unfold child?
  exact if_pos rfl

theorem unnests_iff {items : List ItemFields} {left right : ItemFields → Json} :
    Unnests (.object [("out", .array (items.map left))])
      (.object [("out", .array (items.map fun item => .object [("x", right item)]))]) ↔
      ∀ item ∈ items, left item = right item := by
  constructor
  · rintro ⟨values, others, first, second, same⟩
    rw [child?_single] at first second
    cases first
    cases second
    rw [List.forall₂_map_left_iff, List.forall₂_map_right_iff, List.forall₂_same] at same
    intro item member
    have value := same item member
    rw [child?_single] at value
    exact (Option.some.inj value).symm
  · intro same
    refine ⟨_, _, child?_single _ _, child?_single _ _, ?_⟩
    rw [List.forall₂_map_left_iff, List.forall₂_map_right_iff, List.forall₂_same]
    intro item member
    rw [child?_single, same item member]

end Json

namespace Reshaper

/-- Writing a body inline and nesting it fail alike or come to arrays of one length, and the items
agree exactly if no item has a field under the variable of the path that is lost with a trace. -/
theorem unnests_transform_iff (reshaper : Reshaper) {input : Json} {source : String}
    {body : List (String × Json)} (free : input.ReferenceFree) (distinct : input.DistinctKeys)
    (plain : ∀ entry ∈ body, isReserved entry.1 = false)
    (inlined : reshaper.Compiles (inlinedRules source body))
    (nested : reshaper.Compiles (nestedRules source body)) :
    Related Eq Json.SameCount (Eval.result (reshaper.transform input (inlinedRules source body)))
      (Eval.result (reshaper.transform input (nestedRules source body))) ∧
    (Related (fun _ _ => True) Json.Unnests
      (Eval.result (reshaper.transform input (inlinedRules source body)))
      (Eval.result (reshaper.transform input (nestedRules source body))) ↔
      ∀ items, reshaper.bodies input source body = .ok items →
        ∀ item ∈ items, item.env.Redundant item.fields) := by
  have settled : input.Settled := ⟨free, distinct⟩
  obtain ⟨first, second⟩ := result_transform_of_bodies settled plain inlined nested
  rw [first, second]
  cases listed : reshaper.bodies input source body with
  | error error => exact ⟨.error rfl, fun _ _ none => (nomatch none), fun _ => .error trivial⟩
  | ok items =>
    obtain ⟨entries, known⟩ := known_of_bodies settled listed
    have counts : (items.map ItemFields.inlined).length = (items.map fun item =>
        Json.object [("x", item.nested reshaper.config.missing)]).length := by
      rw [List.length_map, List.length_map]
    refine ⟨.ok ⟨_, _, Json.child?_single _ _, Json.child?_single _ _, counts⟩, ?_, ?_⟩
    · rintro agree items' ⟨rfl⟩ item member
      rcases agree with unnests | _
      have same := Json.unnests_iff.mp unnests item member
      exact (ItemFields.inlined_eq_nested_iff (known item member)).mp same
    · intro redundant
      refine .ok (Json.unnests_iff.mpr fun item member => ?_)
      exact (ItemFields.inlined_eq_nested_iff (known item member)).mpr
        (redundant items rfl item member)

/-- A field under the variable of the path, behind a field that has its value already. -/
theorem unnests_transform_iff_row :
    let input : Json := .object [("r", .object [("a", .ofNat 1)])]
    let body : List (String × Json) := [("a", .string "yes"), (":row", .string "yes")]
    let inlined := Eval.result ((default : Reshaper).transform input (inlinedRules "$.r.:row" body))
    let nested := Eval.result ((default : Reshaper).transform input (nestedRules "$.r.:row" body))
    Related Eq Json.SameCount inlined nested ∧
      (Related (fun _ _ => True) Json.Unnests inlined nested ↔
        ∀ items, (default : Reshaper).bodies input "$.r.:row" body = .ok items →
          ∀ item ∈ items, item.env.Redundant item.fields) := by
  refine unnests_transform_iff default ?_ ?_ (by decide) (by decide +kernel) (by decide +kernel)
  · simp only [Json.ReferenceFree, Json.Avoids, Json.AvoidsEntries, Json.ofNat, and_true]
    decide
  · simp [Json.DistinctKeys, Json.DistinctKeysEntries, Json.ofNat]

/-- A field under the variable of the path is lost where it stands in the repeating rule. -/
theorem not_unnests_transform_row :
    let input : Json := .object [("r", .object [("a", .ofNat 1)])]
    let body : List (String × Json) := [(":row", .string "yes")]
    let inlined := Eval.result ((default : Reshaper).transform input (inlinedRules "$.r.:row" body))
    let nested := Eval.result ((default : Reshaper).transform input (nestedRules "$.r.:row" body))
    inlined = .ok (.object [("out", .array [.object []])]) ∧
      nested = .ok (.object [("out", .array [.object [("x", .object [("a", .string "yes")])]])]) ∧
      ¬ Related (fun _ _ => True) Json.Unnests inlined nested := by
  intro input body inlined nested
  have settled : input.Settled := by
    constructor
    · simp only [input, Json.ReferenceFree, Json.Avoids, Json.AvoidsEntries, Json.ofNat, and_true]
      decide
    · simp [input, Json.DistinctKeys, Json.DistinctKeysEntries, Json.ofNat]
  have listed : (default : Reshaper).bodies input "$.r.:row" body =
      .ok [⟨⟨[(":row", .string "a")]⟩, [(":row", .string "yes")]⟩] := by decide +kernel
  have compiles : (default : Reshaper).Compiles (inlinedRules "$.r.:row" body) := by
    decide +kernel
  have compilesNested : (default : Reshaper).Compiles (nestedRules "$.r.:row" body) := by
    decide +kernel
  obtain ⟨first, second⟩ :=
    result_transform_of_bodies settled (by decide) compiles compilesNested
  rw [listed] at first second
  have lost : inlined = .ok (.object [("out", .array [.object []])]) := first
  have kept : nested =
      .ok (.object [("out", .array [.object [("x", .object [("a", .string "yes")])]])]) := second
  refine ⟨lost, kept, ?_⟩
  rw [lost, kept]
  rintro ⟨values, items, out, outNested, same⟩
  rw [Json.child?_single] at out outNested
  cases out
  cases outNested
  rcases same with _ | ⟨item, _⟩
  rw [Json.child?_single] at item
  cases item

end Reshaper

end Reshape
