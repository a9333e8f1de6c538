import Reshape.Proofs.Lockstep

/-!
# Evaluation in a single pass

The evaluator substitutes its environment in every value that a path leads to and once more in the
value of every entry, so a value deep inside an output has been searched for references once for
each entry around it, in different environments. `Rule.evalOnce` does none of this: a text is looked
up, a path is followed, and what was found is written as it is.

The two are runs that agree on every rule with plain keys (`Rule.singlePass`), because everything
that evaluation meets then stays settled: the values found in the document and in the environment,
the objects that are written, and the collected outcomes with the texts of their keys.
-/

namespace Reshape

namespace Rule

/-! ## The single pass -/

mutual

/-- Evaluate a rule without substituting in what was found or written. -/
def evalOnce (missing : Missing) : Rule → Context → Except Error (Option Json)
  | .text source, context =>
    .ok (if isReference source then context.env.get? source else some (.string source))
  | .path source, context => .ok (context.current.follow (context.env.fill source.tokens)).value
  | .object entries, context => do
    let entries ← evalEntriesOnce missing entries context []
    return some (.object entries)
  | .each source key index fields, context => do
    let items ← (source.items context.root context.env).result
    let outcomes ← items.mapM fun item => do
      let inner := context.enter item
      let key ← evalOptionOnce missing key inner
      let index ← evalOptionOnce missing index inner
      let fields ← evalEntriesOnce missing fields inner []
      return ({ key, index, fields } : Outcome)
    return some (Outcome.collect key.isSome outcomes)

/-- Evaluate a rule that may be absent. -/
def evalOptionOnce (missing : Missing) : Option Rule → Context → Except Error (Option Json)
  | none, _ => .ok none
  | some rule, context => evalOnce missing rule context

/-- Evaluate entries one after another and write them behind those written before. -/
def evalEntriesOnce (missing : Missing) :
    List (String × Rule) → Context → Entries Json → Except Error (Entries Json)
  | [], _, written => .ok written
  | (key, rule) :: rest, context, written => do
    let value ← evalOnce missing rule context
    evalEntriesOnce missing rest context (missing.put written key value).value

end

theorem evalOptionOnce_eq (missing : Missing) (rule : Option Rule) (context : Context) :
    evalOptionOnce missing rule context =
      optionOf (partOf (evalOnce missing) (fun _ value => value) context) rule := by
  cases rule with
  | none => rfl
  | some rule => exact (bind_pure (evalOnce missing rule context)).symm

theorem evalEntriesOnce_eq (missing : Missing) (entries : List (String × Rule))
    (context : Context) :
    evalEntriesOnce missing entries context [] =
      objectOf missing (partOf (evalOnce missing) (fun _ value => value) context) entries := by
  refine eq_mapM_pairOf (fun entries => evalEntriesOnce missing entries context)
    (fun written => by rw [evalEntriesOnce]) (fun key rule rest written => ?_) entries []
  rw [evalEntriesOnce, partOf, bind_pure]

/-- The evaluation in a single pass, where values stay as they are. -/
def Run.once (missing : Missing) : Run missing where
  settle _ value := value
  eval := evalOnce missing
  eval_object entries context := by
    rw [evalOnce, evalEntriesOnce_eq]
  eval_each source key index fields context := by
    rw [evalOnce]
    simp only [evalOptionOnce_eq, evalEntriesOnce_eq]
    rfl

/-! ## Agreement -/

/-- The evaluator and the single pass agree where everything around is settled. -/
def singlePass (missing : Missing) :
    Agreement Json.settled (.substituting missing) (.once missing) where
  map := .id
  here rule := ∀ key ∈ rule.keys, isReference key = false
  contexts context other := context = other ∧ Json.settled.Within context
  failures := Eq
  keeps := Map.key_id
  admits here := here
  text {source context _} _ alike := by
    obtain ⟨rfl, within⟩ := alike
    have holds := Json.Family.holds_substText within.env source
    change Related _ _ (Eval.result (Rule.eval missing (.text source) context))
      (evalOnce missing (.text source) context)
    rw [result_eval_text, evalOnce, ← Env.value_substText]
    exact Agree.of_ok holds
  path {source context _} _ alike := by
    obtain ⟨rfl, within⟩ := alike
    have settled := Json.settled.holds_follow within.current (context.env.fill source.tokens)
    change Related _ _ (Eval.result (Rule.eval missing (.path source) context))
      (evalOnce missing (.path source) context)
    rw [result_eval_path, evalOnce, ← Env.value_substOption,
      Json.Settled.value_substOption settled]
    exact Agree.of_ok settled
  items {source _ _ _ context _} _ alike := by
    obtain ⟨rfl, within⟩ := alike
    have listed : Agree (fun items => ∀ item ∈ items, Json.settled.HoldsItem item)
        (source.items context.root context.env).result
        (source.items context.root context.env).result :=
      Agree.refl fun items => Json.Family.holdsItem_of_items within.root within.env
    refine Related.mono listed fun items items' same => ?_
    rw [← same.1, List.forall₂_same]
    exact fun item member => ⟨rfl, within.enter (same.2 item member)⟩
  settle {context _ value} _ settled := by
    have same : (context.env.substOption missing value).value = value :=
      Json.Settled.value_substOption settled
    refine ⟨same, ?_⟩
    change Json.settled.HoldsOption (context.env.substOption missing value).value
    rw [same]
    exact settled

section Agreement

variable {missing : Missing} {context : Context}

/-- In a settled context a rule with plain keys evaluates in a single pass, to a settled value. -/
theorem agree_eval {rule : Rule} (plain : rule.PlainKeys)
    (within : Json.settled.Within context) :
    Agree Json.settled.HoldsOption (eval missing rule context).result
      (evalOnce missing rule context) :=
  (singlePass missing).related_eval plain ⟨rfl, within⟩

theorem result_evalEntries_eq_evalEntriesOnce {entries : List (String × Rule)}
    (plain : (Rule.object entries).PlainKeys) (within : Json.settled.Within context) :
    Eval.result (evalEntries missing entries context []) =
      evalEntriesOnce missing entries context [] := by
  have agree : Agree Json.settled.Fields
      (objectOf missing ((Run.substituting missing).part context) entries)
      (objectOf missing ((Run.once missing).part context)
        (entries.map (Prod.map Map.id.key Map.id.rule))) :=
    (singlePass missing).lockstep.related_objectOf_of_every plain ⟨rfl, within⟩
  rw [Map.entries_id] at agree
  rw [result_evalEntries_eq, evalEntriesOnce_eq]
  exact agree.eq

end Agreement

end Rule

namespace Reshaper

/-- A reshaper evaluates a rule with plain keys in a single pass, whatever the rule is made of: the
substitutions in values that were found or written change nothing, if no reference occurs in the
document or in a bound value. -/
theorem result_eval_eq_evalOnce (reshaper : Reshaper) {rule : Rule} {document : Json} {env : Env}
    (plain : rule.PlainKeys) (free : document.ReferenceFree) (distinct : document.DistinctKeys)
    (bound : ∀ name, ∀ value ∈ env.get? name, value.ReferenceFree ∧ value.DistinctKeys) :
    Eval.result (reshaper.eval rule document env) =
      rule.evalOnce reshaper.config.missing (.ofDocument document env) := by
  have within : Json.settled.Within (.ofDocument document env) :=
    ⟨⟨free, distinct⟩, ⟨free, distinct⟩, fun name value found =>
      ⟨(bound name value found).1, (bound name value found).2⟩⟩
  exact (Rule.agree_eval plain within).eq

/-- Cells of named rows, collected under the names of the rows. -/
theorem result_eval_eq_evalOnce_rows :
    Eval.result ((default : Reshaper).eval
      (.each ⟨[.key "rows", .var ":row"]⟩ (some (.text ":row")) none
        [("cells", .each ⟨[.key "rows", .var ":row"]⟩ none (some (.path ⟨[]⟩))
          [("row", .text ":row"), ("unit", .text ":unit"), ("cell", .path ⟨[]⟩)])])
      (.object [("rows", .object [("r1", .array [.ofNat 2, .null]), ("r2", .string "x")])])
      ⟨[(":unit", .string "m")]⟩) =
    Rule.evalOnce .asNull
      (.each ⟨[.key "rows", .var ":row"]⟩ (some (.text ":row")) none
        [("cells", .each ⟨[.key "rows", .var ":row"]⟩ none (some (.path ⟨[]⟩))
          [("row", .text ":row"), ("unit", .text ":unit"), ("cell", .path ⟨[]⟩)])])
      (.ofDocument
        (.object [("rows", .object [("r1", .array [.ofNat 2, .null]), ("r2", .string "x")])])
        ⟨[(":unit", .string "m")]⟩) := by
  refine result_eval_eq_evalOnce _ ?_ ?_ ?_ ?_
  · simp only [Rule.PlainKeys, Rule.Every, Rule.EveryOption, Rule.EveryEntry, Rule.keys]
    decide
  · simp only [Json.ReferenceFree, Json.Avoids, Json.AvoidsEntries, Json.AvoidsItems, Json.ofNat,
      and_true]
    decide
  · simp [Json.DistinctKeys, Json.DistinctKeysEntries, Json.DistinctKeysItems, Json.ofNat]
  · intro name value found
    have member := List.mem_singleton.mp (Entries.mem_of_get?_eq_some found)
    obtain rfl : value = .string "m" := congrArg Prod.snd member
    exact ⟨(by decide : ¬ isReference "m" = true), trivial⟩

end Reshaper

end Reshape
