import Reshape.Proofs.Failure
import Reshape.Proofs.Keying
import Reshape.Proofs.Listing
import Reshape.Proofs.Lockstep
import Reshape.Proofs.Places

/-!
# Repeating over items in a row

The body of a repeating rule sees the root document only through the repeating rules inside it. If
there are none, what an item comes to depends on the item and on the environment alone
(`Rule.exists_resultBody`). Where in addition no place is asked for, items in a row come to what
their parts come to, in a row: arrays one behind the other, and objects one written into the other.
-/

namespace Reshape

namespace Rule

/-! ## Rules without repeating rules inside -/

/-- Whether the rule is a repeating one. -/
def isRepeating : Rule → Bool
  | .each .. => true
  | _ => false

/-- Neither the rule nor a rule inside it is a repeating one. -/
def RepeatsNothing (rule : Rule) : Prop := rule.Every fun node => node.isRepeating = false

variable {missing : Missing}

/-- Where nothing is repeated, nothing fails. -/
theorem failure?_eval_of_repeatsNothing {rule : Rule} (flat : rule.RepeatsNothing)
    (context : Context) : failure? (eval missing rule context).result = none := by
  induction rule using inductOnParts with
  | step rule ih =>
    obtain ⟨here, parts⟩ := every_iff_parts.mp flat
    cases rule with
    | text source => exact failure?_eval_text missing context source
    | path source => exact failure?_eval_path missing context source
    | object entries =>
      rw [failure?_eval_object, List.findSome?_eq_none_iff]
      exact fun part inside => ih part inside (parts part inside)
    | each source key index fields => cases here

/-- Where nothing is repeated, the root is not looked at. -/
def rootless (missing : Missing) :
    Agreement Json.anything (.substituting missing) (.substituting missing) where
  map := .id
  here node := node.isRepeating = false
  contexts context other := context.current = other.current ∧ context.env = other.env
  failures := Eq
  keeps := Map.key_id
  admits _ _ _ := trivial
  text {source context other} _ alike := by
    change Related _ _ (Eval.result (Rule.eval missing (.text source) context))
      (Eval.result (Rule.eval missing (.text source) other))
    rw [result_eval_text, result_eval_text, alike.2]
    exact .ok ⟨rfl, fun _ _ => trivial⟩
  path {source context other} _ alike := by
    change Related _ _ (Eval.result (Rule.eval missing (.path source) context))
      (Eval.result (Rule.eval missing (.path source) other))
    rw [result_eval_path, result_eval_path, alike.1, alike.2]
    exact .ok ⟨rfl, fun _ _ => trivial⟩
  items here := nomatch here
  settle alike _ := ⟨by rw [alike.2], fun _ _ => trivial⟩

variable {current : Json} {env : Env} {root : Json}

theorem part_eq_of_repeatsNothing {rule : Rule} (flat : rule.RepeatsNothing) (root other : Json) :
    substitutedPart missing ⟨root, current, env⟩ rule =
      substitutedPart missing ⟨other, current, env⟩ rule := by
  have alike : (rootless missing).contexts ⟨root, current, env⟩ ⟨other, current, env⟩ :=
    ⟨rfl, rfl⟩
  have part : Agree Json.anything.HoldsOption
      (substitutedPart missing ⟨root, current, env⟩ rule)
      (substitutedPart missing ⟨other, current, env⟩ rule) :=
    (rootless missing).lockstep.related_part alike ((rootless missing).related_eval flat alike)
  exact part.eq

/-! ## Items one by one -/

variable {source : Path} {key index : Option Rule} {fields : List (String × Rule)}

/-- What an item comes to depends on the item and the environment alone. -/
theorem exists_resultBody (flat : ∀ part ∈ (each source key index fields).parts,
      part.RepeatsNothing) (current : Json) (env : Env) :
    ∃ outcome, ∀ root, resultBody missing key index fields ⟨root, current, env⟩ = .ok outcome := by
  have fine : failure? (resultBody missing key index fields ⟨.null, current, env⟩) = none := by
    rw [failure?_resultBody missing _ source, List.findSome?_eq_none_iff]
    exact fun part inside => failure?_eval_of_repeatsNothing (flat part inside) _
  obtain ⟨outcome, result⟩ := failure?_eq_none_iff.mp fine
  refine ⟨outcome, fun root => Eq.trans ?_ result⟩
  rw [resultBody_eq, resultBody_eq]
  exact outcomeOf_congr source fun rule member =>
    part_eq_of_repeatsNothing (flat rule member) root .null

/-- Where the rule asks for no place, an item has none. -/
theorem index_of_resultBody {context : Context} {outcome : Outcome}
    (body : resultBody missing key none fields context = .ok outcome) : outcome.index = none := by
  obtain ⟨_, _, body⟩ := of_bind_eq_ok body
  obtain ⟨index, absent, body⟩ := of_bind_eq_ok body
  obtain ⟨_, _, same⟩ := of_bind_eq_ok body
  rw [result_evalOption_none] at absent
  obtain rfl := Except.ok.inj same
  exact (Except.ok.inj absent).symm

/-- A path without variables that leads to an array has the items of the array. -/
theorem result_items_of_array (plain : source.hasVariables = false) {items : List Json}
    (found : (root.follow source.tokens).value = some (.array items)) :
    Eval.result (source.items root env) = .ok (items.map fun item => ⟨item, env⟩) := by
  have closed : Token.variableNames source.tokens = [] :=
    Token.variableNames_eq_nil_iff.mpr (by simpa [Path.hasVariables] using plain)
  have filled : env.fill source.tokens = source.tokens :=
    Env.fill_of_variableNames_eq_nil env closed
  rw [Path.result_items_eq_itemsOf (filled.symm ▸ closed), filled, found]
  rfl

/-- A repeating rule collects what the items of an array come to. -/
theorem result_eval_each_of_array (plain : source.hasVariables = false)
    {outcome : Json → Outcome}
    (bodies : ∀ item, resultBody missing key index fields ⟨root, item, env⟩ = .ok (outcome item))
    {items : List Json} (found : (root.follow source.tokens).value = some (.array items)) :
    Eval.result (eval missing (.each source key index fields) (.ofDocument root env)) =
      .ok (some (Outcome.collect key.isSome (items.map outcome))) := by
  let body (item : Item) : Except Error Outcome :=
    resultBody missing key index fields ((Context.ofDocument root env).enter item)
  have each : (items.map fun item => (⟨item, env⟩ : Item)).mapM body = .ok (items.map outcome) := by
    have pure_bodies : (body ∘ fun item => ⟨item, env⟩) = fun item => pure (outcome item) :=
      funext bodies
    rw [List.mapM_map, pure_bodies]
    exact List.mapM_pure
  have listed : Eval.result (source.items (Context.ofDocument root env).root
      (Context.ofDocument root env).env) = .ok (items.map fun item => ⟨item, env⟩) :=
    result_items_of_array plain found
  rw [result_eval_each, listed]
  change (List.mapM body _ >>= _) = _
  rw [each]
  rfl

end Rule

/-! ## Outcomes in a row -/

namespace Outcome

/-- Without places, an array holds the outcomes as they come. -/
theorem collect_false_of_unplaced {outcomes : List Outcome}
    (unplaced : ∀ outcome ∈ outcomes, asked? outcome.index = none) :
    collect false outcomes = .array (outcomes.map output) := by
  change (toArray outcomes).value = _
  rw [value_toArray, sorted_of_unplaced unplaced]

theorem collect_true (outcomes : List Outcome) :
    collect true outcomes = .object (Entries.insertAll [] (outcomes.filterMap pair?)) :=
  value_toObject outcomes

/-- Outcomes in a row are written like the second object into the first. -/
theorem insertAll_filterMap_append (first second : List Outcome) :
    Entries.insertAll [] ((first ++ second).filterMap pair?) =
      Entries.insertAll (Entries.insertAll [] (first.filterMap pair?))
        (Entries.insertAll [] (second.filterMap pair?)) := by
  have nothing : (Entries.keys ([] : Entries Json)).Nodup := List.nodup_nil
  rw [List.filterMap_append, Entries.insertAll_append, Entries.insertAll_insertAll nothing]
  rfl

end Outcome

namespace Reshaper

/-- A repeating rule whose path has no variables, that asks for no place and has no repeating rules
inside is evaluated item by item: each item has an outcome of its own, whatever the document around
it and the other items are. Where the path leads to an array in three documents, and the third array
is the first two in a row, the rule succeeds on all of them. Without a key the third output is the
first two in a row, and with a key it is the first into which the entries of the second are written
one by one. -/
theorem eval_each_append (reshaper : Reshaper) {source : Path} {key : Option Rule}
    {fields : List (String × Rule)} (plain : source.hasVariables = false)
    (flat : ∀ part ∈ (Rule.each source key none fields).parts, part.RepeatsNothing) (env : Env) :
    ∃ outcome : Json → Outcome,
      (∀ root item, Rule.resultBody reshaper.config.missing key none fields ⟨root, item, env⟩ =
        .ok (outcome item)) ∧
      ∀ (one two both : Json) (items more : List Json),
        (one.follow source.tokens).value = some (.array items) →
        (two.follow source.tokens).value = some (.array more) →
        (both.follow source.tokens).value = some (.array (items ++ more)) →
        let output (document : Json) : Except Error (Option Json) :=
          (reshaper.eval (.each source key none fields) document env).result
        match key with
        | none =>
          output one = .ok (some (.array (items.map fun item => (outcome item).output))) ∧
          output two = .ok (some (.array (more.map fun item => (outcome item).output))) ∧
          output both = .ok (some (.array ((items.map fun item => (outcome item).output) ++
            more.map fun item => (outcome item).output)))
        | some _ =>
          ∃ entries others,
            entries = Entries.insertAll [] (items.filterMap fun item => (outcome item).pair?) ∧
            others = Entries.insertAll [] (more.filterMap fun item => (outcome item).pair?) ∧
            output one = .ok (some (.object entries)) ∧
            output two = .ok (some (.object others)) ∧
            output both = .ok (some (.object (Entries.insertAll entries others))) := by
  have single : ∀ item, ∃ outcome, ∀ root, Rule.resultBody reshaper.config.missing key none fields
      ⟨root, item, env⟩ = .ok outcome := fun item => Rule.exists_resultBody flat item env
  choose outcome bodies using single
  have collected : ∀ (document : Json) (items : List Json),
      (document.follow source.tokens).value = some (.array items) →
      Eval.result (reshaper.eval (.each source key none fields) document env) =
        .ok (some (Outcome.collect key.isSome (items.map outcome))) :=
    fun document items => Rule.result_eval_each_of_array plain fun item => bodies item document
  refine ⟨outcome, fun root item => bodies item root, ?_⟩
  intro one two both items more foundOne foundTwo foundBoth output
  have one := collected one items foundOne
  have two := collected two more foundTwo
  have both := collected both (items ++ more) foundBoth
  cases key with
  | none =>
    have unplaced : ∀ items : List Json, ∀ o ∈ items.map outcome, Outcome.asked? o.index = none := by
      intro items o member
      obtain ⟨item, _, rfl⟩ := List.mem_map.mp member
      rw [Rule.index_of_resultBody (bodies item .null)]
      rfl
    have array : ∀ items : List Json, Outcome.collect false (items.map outcome) =
        .array (items.map fun item => (outcome item).output) := by
      intro items
      rw [Outcome.collect_false_of_unplaced (unplaced items), List.map_map]
      rfl
    rw [Option.isSome_none, array] at one two both
    rw [List.map_append] at both
    exact ⟨one, two, both⟩
  | some rule =>
    have pairs : ∀ items : List Json, (items.map outcome).filterMap Outcome.pair? =
        items.filterMap fun item => (outcome item).pair? := fun items => List.filterMap_map
    rw [Option.isSome_some, Outcome.collect_true] at one two both
    rw [List.map_append, Outcome.insertAll_filterMap_append] at both
    rw [pairs] at one two both
    rw [pairs] at both
    exact ⟨_, _, rfl, rfl, one, two, both⟩

/-- Rows with keys of several kinds, one of them missing, and one that comes up again. -/
theorem eval_each_append_rows :
    let row (id n : Json) : Json := .object [("id", id), ("n", n)]
    let document (rows : List Json) : Json := .object [("rows", .array rows)]
    let items : List Json := [row (.string "a") (.ofNat 1), row (.ofNat 7) (.ofNat 2)]
    let more : List Json := [row (.string "b") .null, .null, row (.string "7") (.bool true)]
    let path : Path := ⟨[.key "rows"]⟩
    let rule : Rule := .each path (some (.path ⟨[.key "id"]⟩)) none
      [("n", .path ⟨[.key "n"]⟩), ("$n", .text "x")]
    let output (rows : List Json) : Except Error (Option Json) :=
      ((default : Reshaper).eval rule (document rows) .empty).result
    path.hasVariables = false ∧ (∀ part ∈ rule.parts, part.RepeatsNothing) ∧
      ∃ entries others, output items = .ok (some (.object entries)) ∧
        output more = .ok (some (.object others)) ∧
        output (items ++ more) = .ok (some (.object (Entries.insertAll entries others))) ∧
        Entries.keys (Entries.insertAll entries others) = ["a", "7", "b"] := by
  intro row document items more path rule output
  have flat : ∀ part ∈ rule.parts, part.RepeatsNothing := by
    simp [rule, Rule.parts, Rule.RepeatsNothing, Rule.Every, Rule.isRepeating]
  have plain : path.hasVariables = false := rfl
  obtain ⟨outcome, _, append⟩ := eval_each_append default plain flat .empty
  obtain ⟨entries, others, _, _, one, two, both⟩ :=
    append (document items) (document more) (document (items ++ more)) items more rfl rfl rfl
  have all : output (items ++ more) = .ok (some (.object
      [("a", .object [("n", .ofNat 1)]), ("7", .object [("n", .bool true)]),
        ("b", .object [("n", .null)])])) := by decide +kernel
  have keys : Entries.insertAll entries others = [("a", .object [("n", .ofNat 1)]),
      ("7", .object [("n", .bool true)]), ("b", .object [("n", .null)])] := by
    have same := both.symm.trans all
    exact Json.object.inj (Option.some.inj (Except.ok.inj same))
  exact ⟨plain, flat, entries, others, one, two, both, by rw [keys]; rfl⟩

end Reshaper

end Reshape
