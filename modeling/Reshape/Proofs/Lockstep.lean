import Reshape.Proofs.Objects
import Reshape.Proofs.Preservation

/-!
# Evaluations side by side

Rules are evaluated in more than one way, and one evaluation is compared to another: of the same
rule in another environment or with another setting, of a rule that was changed, or without the
substitutions in between. All of these are a `Rule.Run`: an object is evaluated part by part, a
repeating rule item by item, and before the value of a part is used it is settled in the
environment.

* `Rule.Lockstep` lists what has to be known of two runs to compare them: texts and paths are
  evaluated to related values, items lead to related contexts, and what is made of related values is
  related. `Rule.Lockstep.related_eval` takes the comparison through all rules, once for all runs.
* `Rule.Agreement` is the case in which both runs come to the same values, and these stay in a
  family of documents.
-/

namespace Reshape

namespace Rule

/-! ## Runs -/

section Parts

variable (missing : Missing) (part : Rule → Except Error (Option Json))

/-- What a part that may be absent comes to. -/
def optionOf : Option Rule → Except Error (Option Json)
  | none => .ok none
  | some rule => part rule

/-- The object of entries: they are evaluated to pairs, and the pairs are written. -/
def objectOf (entries : List (String × Rule)) : Except Error (Entries Json) := do
  let pairs ← entries.mapM (pairOf part)
  return (missing.putAll [] pairs).value

/-- The outcome of the body of a repeating rule. -/
def outcomeOf (key index : Option Rule) (fields : List (String × Rule)) :
    Except Error Outcome := do
  let key ← optionOf part key
  let index ← optionOf part index
  let fields ← objectOf missing part fields
  return { key, index, fields }

/-- What a part comes to: it is evaluated, and its value is settled in the environment. -/
def partOf (eval : Rule → Context → Except Error (Option Json))
    (settle : Env → Option Json → Option Json) (context : Context) (rule : Rule) :
    Except Error (Option Json) := do
  let value ← eval rule context
  return settle context.env value

theorem keys_of_mapM_pairOf {entries : List (String × Rule)} {pairs : List (String × Option Json)}
    (evaluated : entries.mapM (pairOf part) = .ok pairs) :
    pairs.map Prod.fst = Entries.keys entries := by
  have related := forall₂_of_mapM_eq_ok evaluated
  have same : List.Forall₂ (fun (entry : String × Rule) (pair : String × Option Json) =>
      entry.1 = pair.1) entries pairs := by
    refine related.imp fun entry pair written => ?_
    obtain ⟨value, _, same⟩ := of_bind_eq_ok written
    exact congrArg Prod.fst (Except.ok.inj same)
  have keys : List.Forall₂ Eq (entries.map Prod.fst) (pairs.map Prod.fst) := by
    rw [List.forall₂_map_left_iff, List.forall₂_map_right_iff]
    exact same
  rw [List.forall₂_eq_eq_eq] at keys
  exact keys.symm

variable {missing part} in
/-- An outcome depends on what the parts of the rule come to, and on nothing else. -/
theorem outcomeOf_congr {other : Rule → Except Error (Option Json)} (source : Path)
    {key index : Option Rule} {fields : List (String × Rule)}
    (same : ∀ rule ∈ (each source key index fields).parts, part rule = other rule) :
    outcomeOf missing part key index fields = outcomeOf missing other key index fields := by
  simp only [parts, List.forall_mem_append, Option.mem_toList, List.forall_mem_map] at same
  obtain ⟨⟨sameKey, sameIndex⟩, sameFields⟩ := same
  have option : ∀ rule : Option Rule, (∀ r ∈ rule, part r = other r) →
      optionOf part rule = optionOf other rule := by
    intro rule same
    cases rule with
    | none => rfl
    | some rule => exact same rule rfl
  have pairs : ∀ field ∈ fields,
      Agree (fun _ => True) (pairOf part field) (pairOf other field) := by
    intro field member
    rw [pairOf, pairOf, sameFields field member]
    exact Agree.refl fun _ _ => trivial
  rw [outcomeOf, outcomeOf, objectOf, objectOf, option key sameKey, option index sameIndex,
    (Agree.mapM pairs).eq]

end Parts

/-- An evaluation of rules, under a setting for missing values, that evaluates objects and repeating
rules part by part. -/
structure Run (missing : Missing) where
  settle : Env → Option Json → Option Json
  eval : Rule → Context → Except Error (Option Json)
  eval_object : ∀ entries context, eval (.object entries) context = do
    let fields ← objectOf missing (partOf eval settle context) entries
    return some (.object fields)
  eval_each : ∀ source key index fields context, eval (.each source key index fields) context = do
    let items ← (source.items context.root context.env).result
    let outcomes ← items.mapM fun item =>
      outcomeOf missing (partOf eval settle (context.enter item)) key index fields
    return some (Outcome.collect key.isSome outcomes)

/-- What a part of a rule comes to. -/
def Run.part {missing : Missing} (run : Run missing) (context : Context) (rule : Rule) :
    Except Error (Option Json) :=
  partOf run.eval run.settle context rule

section Substituting

variable (missing : Missing) (context : Context)

/-- What a part comes to where the environment is substituted in its value. -/
abbrev substitutedPart : Rule → Except Error (Option Json) :=
  partOf (fun rule context => (eval missing rule context).result)
    (fun env value => (env.substOption missing value).value) context

theorem result_evalOption_eq (rule : Option Rule) :
    Eval.result (evalOption missing rule context) =
      optionOf (substitutedPart missing context) rule := by
  cases rule with
  | none => exact result_evalOption_none missing context
  | some rule => exact result_evalOption_some missing context rule

theorem result_evalEntries_eq (entries : List (String × Rule)) :
    Eval.result (evalEntries missing entries context []) =
      objectOf missing (substitutedPart missing context) entries := by
  have pairs : evalPair missing context = pairOf (substitutedPart missing context) := by
    funext entry
    simp only [evalPair, pairOf, partOf, bind_assoc, pure_bind]
  rw [result_evalEntries, pairs, objectOf]

theorem resultBody_eq (key index : Option Rule) (fields : List (String × Rule)) :
    resultBody missing key index fields context =
      outcomeOf missing (substitutedPart missing context) key index fields := by
  rw [resultBody, result_evalOption_eq, result_evalOption_eq, result_evalEntries_eq, outcomeOf]

/-- The evaluation of rules, without the log. -/
def Run.substituting : Run missing where
  settle env value := (env.substOption missing value).value
  eval rule context := (Rule.eval missing rule context).result
  eval_object entries context := by
    rw [result_eval_object, result_evalEntries_eq]
  eval_each source key index fields context := by
    rw [result_eval_each]
    simp only [resultBody_eq]

end Substituting

/-! ## Changed rules -/

/-- A change of rules that goes through all their parts. -/
structure Map where
  rule : Rule → Rule
  key : String → String
  path : Path → Path
  object : ∀ entries, rule (.object entries) = .object (entries.map (Prod.map key rule))
  each : ∀ source name index fields, rule (.each source name index fields) =
    .each (path source) (name.map rule) (index.map rule) (fields.map (Prod.map key rule))

/-- No change. -/
def Map.id : Map where
  rule rule := rule
  key key := key
  path path := path
  object entries := congrArg Rule.object (List.map_id' entries).symm
  each source key index fields := by
    have same : fields.map (Prod.map (fun key => key) fun rule => rule) = fields :=
      List.map_id' fields
    rw [Option.map_id', Option.map_id', same]

theorem Map.key_id (key : String) : Map.id.key key = key := rfl

theorem Map.entries_id (entries : List (String × Rule)) :
    entries.map (Prod.map Map.id.key Map.id.rule) = entries := List.map_id' entries

/-! ## Comparing two runs -/

/-- What parts come to is related if what they are evaluated to is related and stays so. -/
theorem Run.related_part {missing missing' : Missing} {left : Run missing} {right : Run missing'}
    {failures : Error → Error → Prop} {values parts : Option Json → Option Json → Prop}
    {rule rule' : Rule} {context other : Context}
    (evaluated : Related failures values (left.eval rule context) (right.eval rule' other))
    (settle : ∀ value value', values value value' →
      parts (left.settle context.env value) (right.settle other.env value')) :
    Related failures parts (left.part context rule) (right.part other rule') :=
  Related.bind evaluated fun value value' same => .ok (settle value value' same)

/-- Two outcomes that are related part by part. -/
structure OutcomeAlike (keys parts : Option Json → Option Json → Prop)
    (objects : Entries Json → Entries Json → Prop) (outcome other : Outcome) : Prop where
  key : keys outcome.key other.key
  index : parts outcome.index other.index
  fields : objects outcome.fields other.fields

/-- What has to be known of two runs to compare what they come to. The second run evaluates changed
rules, in contexts that are related to those of the first one. A condition may be asked of every
rule inside (`here`), and the keys of outcomes may be compared in another way than other parts. -/
structure Lockstep {missing missing' : Missing} (left : Run missing) (right : Run missing') where
  map : Map
  here : Rule → Prop
  contexts : Context → Context → Prop
  failures : Error → Error → Prop
  values : Option Json → Option Json → Prop
  parts : Option Json → Option Json → Prop
  keys : Option Json → Option Json → Prop
  objects : Entries Json → Entries Json → Prop
  -- what the comparison starts from
  text : ∀ {source context other}, here (.text source) → contexts context other →
    Related failures values (left.eval (.text source) context)
      (right.eval (map.rule (.text source)) other)
  path : ∀ {source context other}, here (.path source) → contexts context other →
    Related failures values (left.eval (.path source) context)
      (right.eval (map.rule (.path source)) other)
  items : ∀ {source key index fields context other}, here (.each source key index fields) →
    contexts context other →
    Related failures
      (List.Forall₂ fun item item' => contexts (context.enter item) (other.enter item'))
      (source.items context.root context.env).result
      ((map.path source).items other.root other.env).result
  -- from the values of parts to what is written and collected of them
  settle : ∀ {context other value value'}, contexts context other → values value value' →
    parts (left.settle context.env value) (right.settle other.env value')
  key : ∀ {source rule index fields context other},
    here (.each source (some rule) index fields) → contexts context other →
    Related failures values (left.eval rule context) (right.eval (map.rule rule) other) →
    Related failures keys (left.part context rule) (right.part other (map.rule rule))
  no_key : keys none none
  no_part : parts none none
  write : ∀ {rule pairs others}, here rule → pairs.map Prod.fst = rule.keys →
    List.Forall₂ (fun pair other => other.1 = map.key pair.1 ∧ parts pair.2 other.2)
      pairs others →
    objects (missing.putAll [] pairs).value (missing'.putAll [] others).value
  object : ∀ {fields others}, objects fields others →
    values (some (.object fields)) (some (.object others))
  collect : ∀ keyed {outcomes others},
    List.Forall₂ (OutcomeAlike keys parts objects) outcomes others →
    values (some (Outcome.collect keyed outcomes)) (some (Outcome.collect keyed others))

namespace Lockstep

variable {missing missing' : Missing} {left : Run missing} {right : Run missing'}
  (steps : Lockstep left right) {context other : Context}

/-- Both runs come to related values, the second one for the changed rule. -/
abbrev Compares (rule : Rule) (context other : Context) : Prop :=
  Related steps.failures steps.values (left.eval rule context)
    (right.eval (steps.map.rule rule) other)

theorem related_part {rule : Rule} (alike : steps.contexts context other)
    (evaluated : steps.Compares rule context other) :
    Related steps.failures steps.parts (left.part context rule)
      (right.part other (steps.map.rule rule)) :=
  Run.related_part evaluated fun _ _ => steps.settle alike

theorem related_objectOf {rule : Rule} (here : steps.here rule) {entries : List (String × Rule)}
    (own : Entries.keys entries = rule.keys) (alike : steps.contexts context other)
    (evaluated : ∀ entry ∈ entries, steps.Compares entry.2 context other) :
    Related steps.failures steps.objects
      (objectOf missing (left.part context) entries)
      (objectOf missing' (right.part other)
        (entries.map (Prod.map steps.map.key steps.map.rule))) := by
  have pairs : List.Forall₂ (fun entry entry' => Related steps.failures
      (fun pair other => other.1 = steps.map.key pair.1 ∧ steps.parts pair.2 other.2)
      (pairOf (left.part context) entry) (pairOf (right.part other) entry'))
      entries (entries.map (Prod.map steps.map.key steps.map.rule)) := by
    refine List.forall₂_map_right_iff.mpr (List.forall₂_same.mpr fun entry member => ?_)
    have part := steps.related_part alike (evaluated entry member)
    exact Related.bind part fun _ _ same => .ok ⟨rfl, same⟩
  have named := (Related.mapM pairs).and_known fun pairs evaluated =>
    keys_of_mapM_pairOf (left.part context) evaluated
  exact Related.bind named fun _ _ same => .ok (steps.write here (same.2.trans own) same.1)

theorem related_outcomeOf {source : Path} {key index : Option Rule} {fields : List (String × Rule)}
    (here : steps.here (.each source key index fields)) (alike : steps.contexts context other)
    (keyEvaluated : ∀ r ∈ key, steps.Compares r context other)
    (indexEvaluated : ∀ r ∈ index, steps.Compares r context other)
    (evaluated : ∀ field ∈ fields, steps.Compares field.2 context other) :
    Related steps.failures (OutcomeAlike steps.keys steps.parts steps.objects)
      (outcomeOf missing (left.part context) key index fields)
      (outcomeOf missing' (right.part other) (key.map steps.map.rule)
        (index.map steps.map.rule) (fields.map (Prod.map steps.map.key steps.map.rule))) := by
  have keys : Related steps.failures steps.keys (optionOf (left.part context) key)
      (optionOf (right.part other) (key.map steps.map.rule)) := by
    cases key with
    | none => exact .ok steps.no_key
    | some rule => exact steps.key here alike (keyEvaluated rule rfl)
  have places : Related steps.failures steps.parts (optionOf (left.part context) index)
      (optionOf (right.part other) (index.map steps.map.rule)) := by
    cases index with
    | none => exact .ok steps.no_part
    | some rule => exact steps.related_part alike (indexEvaluated rule rfl)
  refine Related.bind keys fun _ _ sameKey => ?_
  refine Related.bind places fun _ _ sameIndex => ?_
  refine Related.bind (steps.related_objectOf here rfl alike evaluated) fun _ _ sameFields => ?_
  exact .ok ⟨sameKey, sameIndex, sameFields⟩

/-- Both runs come to related values for every rule. -/
theorem related_eval {rule : Rule} (every : rule.Every steps.here)
    (alike : steps.contexts context other) : steps.Compares rule context other := by
  induction rule generalizing context other with
  | text source => exact steps.text every alike
  | path source => exact steps.path every alike
  | object entries ih =>
    obtain ⟨here, parts⟩ := every_object_iff.mp every
    unfold Compares
    rw [left.eval_object, steps.map.object, right.eval_object]
    have fields := steps.related_objectOf here rfl alike fun entry member =>
      ih entry member (parts entry member) alike
    exact Related.bind fields fun _ _ same => .ok (steps.object same)
  | each source key index fields keyIh indexIh fieldIh =>
    obtain ⟨here, keyParts, indexParts, fieldParts⟩ := every_each_iff.mp every
    unfold Compares
    rw [left.eval_each, steps.map.each, right.eval_each]
    refine Related.bind (steps.items here alike) fun items others listed => ?_
    have bodies := listed.imp fun item item' alike =>
      steps.related_outcomeOf here alike (fun r same => keyIh r same (keyParts r same) alike)
        (fun r same => indexIh r same (indexParts r same) alike)
        fun field member => fieldIh field member (fieldParts field member) alike
    refine Related.bind (Related.mapM bodies) fun outcomes others same => ?_
    rw [Option.isSome_map]
    exact .ok (steps.collect key.isSome same)

/-- Both runs write related objects for entries. -/
theorem related_objectOf_of_every {entries : List (String × Rule)}
    (every : (Rule.object entries).Every steps.here) (alike : steps.contexts context other) :
    Related steps.failures steps.objects
      (objectOf missing (left.part context) entries)
      (objectOf missing' (right.part other)
        (entries.map (Prod.map steps.map.key steps.map.rule))) := by
  obtain ⟨here, parts⟩ := every_object_iff.mp every
  exact steps.related_objectOf here rfl alike fun entry member =>
    steps.related_eval (parts entry member) alike

end Lockstep

/-! ## Runs that agree -/

/-- What has to be known of two runs to show that they come to the same values, which belong to a
family. The second run may evaluate changed rules, but under the same keys. -/
structure Agreement (family : Json.Family) {missing : Missing} (left right : Run missing) where
  map : Map
  here : Rule → Prop
  contexts : Context → Context → Prop
  failures : Error → Error → Prop
  keeps : ∀ key, map.key key = key
  admits : ∀ {rule}, here rule → ∀ key ∈ rule.keys, family.Admits key
  text : ∀ {source context other}, here (.text source) → contexts context other →
    Related failures family.Shares (left.eval (.text source) context)
      (right.eval (map.rule (.text source)) other)
  path : ∀ {source context other}, here (.path source) → contexts context other →
    Related failures family.Shares (left.eval (.path source) context)
      (right.eval (map.rule (.path source)) other)
  items : ∀ {source key index fields context other}, here (.each source key index fields) →
    contexts context other →
    Related failures
      (List.Forall₂ fun item item' => contexts (context.enter item) (other.enter item'))
      (source.items context.root context.env).result
      ((map.path source).items other.root other.env).result
  settle : ∀ {context other value}, contexts context other → family.HoldsOption value →
    family.Shares (left.settle context.env value) (right.settle other.env value)

namespace Agreement

variable {family : Json.Family} {missing : Missing} {left right : Run missing}

theorem fields_putAll {pairs : List (String × Option Json)}
    (admits : ∀ pair ∈ pairs, family.Admits pair.1)
    (holds : ∀ pair ∈ pairs, family.HoldsOption pair.2) {written : Entries Json}
    (fields : family.Fields written) :
    family.Fields (missing.putAll written pairs).value := by
  induction pairs generalizing written with
  | nil => exact fields
  | cons pair rest ih =>
    obtain ⟨key, value⟩ := pair
    obtain ⟨admitted, admits⟩ := List.forall_mem_cons.mp admits
    obtain ⟨held, holds⟩ := List.forall_mem_cons.mp holds
    rw [Missing.value_putAll_cons]
    exact ih admits holds (fields.put admitted held)

theorem eq_and_holds_of_alike {outcomes others : List Outcome}
    (alike : List.Forall₂ (OutcomeAlike family.Shares family.Shares
      fun fields fields' => fields = fields' ∧ family.Fields fields) outcomes others) :
    outcomes = others ∧ ∀ outcome ∈ outcomes, family.HoldsOutcome outcome := by
  refine eq_and_forall_of_forall₂ (alike.imp fun outcome other same => ?_)
  obtain ⟨key, index, fields⟩ := outcome
  obtain ⟨key', index', fields'⟩ := other
  obtain ⟨⟨rfl, held⟩, ⟨rfl, _⟩, ⟨rfl, written⟩⟩ := same
  exact ⟨rfl, held, written⟩

variable (agreement : Agreement family left right)

/-- Runs that agree are compared by equality, within the family. -/
def lockstep : Lockstep left right where
  map := agreement.map
  here := agreement.here
  contexts := agreement.contexts
  failures := agreement.failures
  values := family.Shares
  parts := family.Shares
  keys := family.Shares
  objects fields others := fields = others ∧ family.Fields fields
  text := agreement.text
  path := agreement.path
  items := agreement.items
  settle alike same := same.1 ▸ agreement.settle alike same.2
  key _ alike evaluated := Run.related_part evaluated fun _ _ same =>
    same.1 ▸ agreement.settle alike same.2
  no_key := ⟨rfl, nofun⟩
  no_part := ⟨rfl, nofun⟩
  write here own alike := by
    have pairwise : ∀ pair other : String × Option Json,
        other.1 = agreement.map.key pair.1 ∧ family.Shares pair.2 other.2 →
          pair = other ∧ family.HoldsOption pair.2 :=
      fun pair other ⟨key, value, holds⟩ =>
        ⟨Prod.ext (key.trans (agreement.keeps pair.1)).symm value, holds⟩
    obtain ⟨rfl, holds⟩ := eq_and_forall_of_forall₂ (alike.imp pairwise)
    have admits := List.forall_mem_map.mp (own ▸ agreement.admits here)
    exact ⟨rfl, fields_putAll admits holds (.nil family)⟩
  object same := ⟨congrArg (fun fields => some (Json.object fields)) same.1,
    fun _ inside => Option.mem_some.mp inside ▸ same.2.holds⟩
  collect keyed _ _ alike := by
    obtain ⟨rfl, holds⟩ := eq_and_holds_of_alike alike
    have collected := Json.Family.holds_collect keyed holds
    exact ⟨rfl, fun _ inside => Option.mem_some.mp inside ▸ collected⟩

/-- Both runs come to the same value of the family. -/
theorem related_eval {rule : Rule} (every : rule.Every agreement.here) {context other : Context}
    (alike : agreement.contexts context other) :
    Related agreement.failures family.Shares (left.eval rule context)
      (right.eval (agreement.map.rule rule) other) :=
  agreement.lockstep.related_eval every alike

end Agreement

end Rule

end Reshape
