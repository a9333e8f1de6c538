import Mathlib.Tactic.SplitIfs
import Reshape.Proofs.Lockstep
import Reshape.Proofs.Reading
import Reshape.Proofs.Renaming

/-!
# Rules with renamed variables

Renaming the variables of a rule renames what it evaluates to and nothing else, and the value of an
entry stays the same, because the environment is substituted in it before it is written: a rule and
the renamed rule are in lockstep (`Rule.renamed`). Reading commutes with renaming
as well (`Rule.ofJsonAt_rename`): a string that spells a path is renamed token by token, any other
string and every key as a whole.

The renaming of a rule is defined for any map of texts; only the theorems ask for a `Renaming`.
-/

namespace Reshape

/-! ## Rules -/

namespace Rule

mutual

/-- Rename the variables of a rule, and its texts and keys with them. -/
def rename (f : String → String) : Rule → Rule
  | .text source => .text (f source)
  | .path source => .path (source.rename f)
  | .object entries => .object (renameEntries f entries)
  | .each source key index fields =>
    .each (source.rename f) (renameOption f key) (renameOption f index) (renameEntries f fields)

/-- The same for a rule that may be absent. -/
def renameOption (f : String → String) : Option Rule → Option Rule
  | none => none
  | some rule => some (rename f rule)

/-- The same for entries. -/
def renameEntries (f : String → String) : List (String × Rule) → List (String × Rule)
  | [] => []
  | (key, rule) :: rest => (f key, rename f rule) :: renameEntries f rest

end

theorem renameOption_eq (f : String → String) (rule : Option Rule) :
    renameOption f rule = rule.map (rename f) := by
  cases rule with
  | none => rfl
  | some rule => rfl

theorem renameEntries_eq (f : String → String) (entries : List (String × Rule)) :
    renameEntries f entries = entries.map (Prod.map f (rename f)) := by
  induction entries with
  | nil => rfl
  | cons entry rest ih =>
    obtain ⟨key, rule⟩ := entry
    rw [renameEntries, ih, List.map_cons, Prod.map_apply]

/-- The renaming of rules as a change of all parts. -/
def Map.rename (f : String → String) : Map where
  rule := Rule.rename f
  key := f
  path := Path.rename f
  object entries := by rw [Rule.rename, renameEntries_eq]
  each source key index fields := by
    rw [Rule.rename, renameOption_eq, renameOption_eq, renameEntries_eq]

/-- The path that a rule itself is made of. -/
def path? : Rule → Option Path
  | .path source => some source
  | .each source _ _ _ => some source
  | _ => none

end Rule

/-- Rename the variables of the environment of a context. -/
def Context.rename (σ : Renaming) (context : Context) : Context :=
  { context with env := context.env.rename σ }

/-! ## Evaluation -/

section Evaluation

variable {σ : Renaming} {report : String → String} {missing : Missing} {context : Context}

theorem Missing.value_put_rename (written : Entries Json) (key : String) (value : Option Json) :
    (missing.put (Json.renameEntries σ written) (σ.name key) (value.map (Json.rename σ))).value =
      Json.renameEntries σ (missing.put written key value).value := by
  cases value with
  | some value => exact Entries.insert_map σ.injective written key value
  | none =>
    cases missing with
    | asNull => exact Entries.insert_map σ.injective written key .null
    | omitted => rfl

namespace Rule

/-- Errors about the paths of the rule report them renamed. -/
def Reports (report : String → String) (σ : Renaming) (rule : Rule) : Prop :=
  rule.Every fun node => ∀ path ∈ node.path?, report path.text = (path.rename σ.name).text

/-- Pairs whose keys are renamed, and in whose values nothing is moved, are written to renamed
entries. -/
theorem value_putAll_rename {pairs others : List (String × Option Json)}
    (alike : List.Forall₂ (fun pair other : String × Option Json => other.1 = σ.name pair.1 ∧
      other.2 = pair.2 ∧ σ.unmoved.HoldsOption pair.2) pairs others) (written : Entries Json) :
    (missing.putAll (Json.renameEntries σ written) others).value =
      Json.renameEntries σ (missing.putAll written pairs).value := by
  induction alike generalizing written with
  | nil => rfl
  | @cons pair other _ _ same _ ih =>
    obtain ⟨key, value⟩ := pair
    obtain ⟨key', value'⟩ := other
    obtain ⟨sameKey, sameValue, holds⟩ := same
    dsimp only at sameKey sameValue holds
    subst sameKey sameValue
    rw [Missing.value_putAll_cons, Missing.value_putAll_cons, ← ih, ← Missing.value_put_rename,
      Json.map_rename_of_holds holds]

theorem value_substOption_rename_of_holds (env : Env) {value : Option Json}
    (holds : σ.unmoved.HoldsOption value) :
    ((env.rename σ).substOption missing value).value = (env.substOption missing value).value := by
  have fixed : value.map (Json.rename σ) = value := Json.map_rename_of_holds holds
  conv_lhs => rw [← fixed]
  exact env.value_substOption_rename value

/-- A renamed value is substituted alike, and nothing is moved in what it becomes. -/
theorem substOption_renamed {value other : Option Json} (within : σ.unmoved.Within context)
    (same : other = value.map (Json.rename σ)) :
    ((context.rename σ).env.substOption missing other).value =
        (context.env.substOption missing value).value ∧
      σ.unmoved.HoldsOption (context.env.substOption missing value).value := by
  subst same
  exact ⟨context.env.value_substOption_rename value,
    Json.Family.holds_substOption within.env value⟩

/-- A rule and the renamed rule go side by side, the second one in a renamed context. The value of a
part is the same in both, because nothing is moved in a value that was substituted. -/
def renamed (report : String → String) (σ : Renaming) (missing : Missing) :
    Lockstep (.substituting missing) (.substituting missing) where
  map := .rename σ.name
  here node := ∀ path ∈ node.path?, report path.text = (path.rename σ.name).text
  contexts context other := context.rename σ = other ∧ σ.unmoved.Within context
  failures := Error.Renamed report
  values value other := other = value.map (Json.rename σ)
  parts value other := other = value ∧ σ.unmoved.HoldsOption value
  keys value other := other = value ∧ σ.unmoved.HoldsOption value
  objects fields others := others = Json.renameEntries σ fields
  text {source context _} _ alike := by
    obtain ⟨rfl, within⟩ := alike
    have found : ((context.rename σ).env.substText (σ.name source)).value =
        (context.env.substText source).value := context.env.value_substText_rename source
    have holds := Json.Family.holds_substText within.env source
    change Related _ _ (Eval.result (Rule.eval missing (.text source) context))
      (Eval.result (Rule.eval missing (.text (σ.name source)) (context.rename σ)))
    rw [result_eval_text, result_eval_text, found]
    exact .ok (Json.map_rename_of_holds holds).symm
  path {source context _} _ alike := by
    obtain ⟨rfl, within⟩ := alike
    have filled : (context.rename σ).env.fill (source.rename σ.name).tokens =
        (context.env.fill source.tokens).map (Token.rename σ.name) :=
      context.env.fill_rename source.tokens
    have found : ((context.rename σ).current.follow
        ((context.env.fill source.tokens).map (Token.rename σ.name))).value =
          (context.current.follow (context.env.fill source.tokens)).value :=
      Json.value_follow_rename within.current _
    have holds := σ.unmoved.holds_follow within.current (context.env.fill source.tokens)
    change Related _ _ (Eval.result (Rule.eval missing (.path source) context))
      (Eval.result (Rule.eval missing (.path (source.rename σ.name)) (context.rename σ)))
    rw [result_eval_path, result_eval_path, filled, found, ← Env.value_substOption,
      ← Env.value_substOption]
    refine .ok ((value_substOption_rename_of_holds context.env holds).trans ?_)
    exact (Json.map_rename_of_holds (Json.Family.holds_substOption within.env _)).symm
  items {source _ _ _ context _} here alike := by
    obtain ⟨rfl, within⟩ := alike
    have listed :=
      (Path.result_items_rename (here source rfl) within.root context.env).and_known
        fun items listed => Json.Family.holdsItem_of_items within.root within.env listed
    refine listed.mono fun items _ same => ?_
    obtain ⟨rfl, holds⟩ := same
    refine List.forall₂_map_right_iff.mpr (List.forall₂_same.mpr fun item member => ?_)
    exact ⟨rfl, within.enter (holds item member)⟩
  settle alike same := by
    obtain ⟨rfl, within⟩ := alike
    exact substOption_renamed within same
  key _ alike evaluated := by
    obtain ⟨rfl, within⟩ := alike
    exact Run.related_part evaluated fun _ _ same => substOption_renamed within same
  no_key := ⟨rfl, nofun⟩
  no_part := ⟨rfl, nofun⟩
  write _ _ alike := value_putAll_rename alike []
  object {fields _} same := by
    subst same
    exact congrArg some (Json.rename_object fields).symm
  collect keyed _ _ alike := congrArg some (OutcomeRenamed.collect keyed
    (alike.imp fun _ _ alike => ⟨alike.key.1, alike.index.1, alike.key.2, alike.fields⟩))

/-- The evaluation of entries commutes with renaming. -/
theorem evalEntries_rename {entries : List (String × Rule)}
    (reports : ∀ entry ∈ entries, entry.2.Reports report σ) (within : σ.unmoved.Within context) :
    Related (Error.Renamed report) (fun fields others => others = Json.renameEntries σ fields)
      (Eval.result (evalEntries missing entries context []))
      (Eval.result (evalEntries missing (renameEntries σ.name entries) (context.rename σ) [])) := by
  have every : (Rule.object entries).Reports report σ := every_object_iff.mpr ⟨nofun, reports⟩
  rw [result_evalEntries_eq, result_evalEntries_eq, renameEntries_eq]
  exact (renamed report σ missing).related_objectOf_of_every every ⟨rfl, within⟩

end Rule

end Evaluation

/-! ## Reading -/

/-- Rename a string of rules: a path token by token, and any other string as a whole. -/
def renameSource (f : String → String) (text : String) : String :=
  match Path.ofText? text with
  | some path => (path.rename f).text
  | none => f text

/-- Rename the variables in a document of rules. -/
def Json.renameRules (f : String → String) (value : Json) : Json :=
  value.mapTexts (renameSource f) f

theorem renameSource_of_path {f : String → String} {text : String} {path : Path}
    (parsed : Path.ofText? text = some path) : renameSource f text = (path.rename f).text := by
  unfold renameSource
  rw [parsed]

theorem renameSource_of_none {f : String → String} {text : String}
    (none : Path.ofText? text = none) : renameSource f text = f text := by
  unfold renameSource
  rw [none]

theorem Path.ofText?_of_isReference {text : String} (reference : isReference text = true) :
    ofText? text = none := by
  cases parsed : ofText? text with
  | none => rfl
  | some path =>
    have dollar := path.beginsWithDollar_text
    rw [text_of_ofText? parsed, beginsWithDollar, head?_eq_of_isReference reference] at dollar
    cases dollar

theorem isSegment_of_isReference {text : String} (reference : isReference text = true) :
    Path.isSegment text.toList = true := by
  unfold isReference at reference
  split at reference
  · next c rest shape =>
    rw [shape]
    unfold Path.isSegment
    rw [List.all_cons, reference]
    rfl
  · cases reference

section Reading

variable {σ : Renaming} {report : String → String} {limit depth : Nat}

theorem Token.spelled_rename {token : Token} (spelled : token.Spelled) :
    (token.rename σ.name).Spelled := by
  cases token with
  | key text => exact spelled
  | var name =>
    have reference : isReference name = true := by
      have read : ofText name = .var name := spelled.read
      unfold ofText at read
      split at read
      · assumption
      · cases read
    have moved : isReference (σ.name name) = true := by rw [σ.isReference_name, reference]
    exact ⟨if_pos moved, isSegment_of_isReference moved, σ.dotless spelled.dotless⟩

theorem Path.spelled_rename {path : Path} (spelled : path.Spelled) :
    (path.rename σ.name).Spelled := by
  intro token member
  obtain ⟨own, inside, rfl⟩ := List.mem_map.mp member
  exact Token.spelled_rename (spelled own inside)

theorem Path.ofText_rename (text : String) :
    Related (Error.Renamed report) (fun path other => other = path.rename σ.name)
      (Path.ofText text) (Path.ofText (renameSource σ.name text)) := by
  cases parsed : Path.ofText? text with
  | some path =>
    have again : Path.ofText? (path.rename σ.name).text = some (path.rename σ.name) :=
      Path.ofText?_text (Path.spelled_rename (Path.spelled_of_ofText? parsed))
    rw [renameSource_of_path parsed]
    unfold Path.ofText
    rw [parsed, again]
    exact .ok rfl
  | none =>
    have none : Path.ofText? (σ.name text) = none := by
      cases reference : isReference text with
      | true => exact Path.ofText?_of_isReference (by rw [σ.isReference_name, reference])
      | false => rw [σ.name_of_plain reference, parsed]
    rw [renameSource_of_none parsed]
    unfold Path.ofText
    rw [parsed, none]
    exact .error (.malformedPath _ _)

theorem beginsWithDollar_renameSource (text : String) :
    beginsWithDollar (renameSource σ.name text) = beginsWithDollar text := by
  cases parsed : Path.ofText? text with
  | some path =>
    rw [renameSource_of_path parsed, Path.beginsWithDollar_text, ← Path.text_of_ofText? parsed,
      Path.beginsWithDollar_text]
  | none =>
    rw [renameSource_of_none parsed]
    exact σ.isReserved_name text

theorem Renaming.name_eq_iff {name : String} (plain : isReference name = false) (key : String) :
    σ.name key = name ↔ key = name := by
  conv_lhs => rw [← σ.name_of_plain plain]
  exact σ.injective.eq_iff

namespace Rule

/-- A renamed value is read as a renamed rule. -/
abbrev ReadRenamed (report : String → String) (σ : Renaming) (value : Json) : Prop :=
  ∀ limit depth, Related (Error.Renamed report) (fun rule other => other = rule.rename σ.name)
    (Eval.result (ofJsonAt limit depth value))
    (Eval.result (ofJsonAt limit depth (value.renameRules σ.name)))

/-- Rename the variables in the parts of a repeating rule. -/
def Body.rename (f : String → String) (body : Body) : Body :=
  ⟨renameOption f body.key, renameOption f body.index, renameEntries f body.fields⟩

variable {entries : List (String × Json)}

theorem ofJsonEntries_rename (parts : ∀ entry ∈ entries, ReadRenamed report σ entry.2) :
    Related (Error.Renamed report) (fun rules others => others = renameEntries σ.name rules)
      (Eval.result (ofJsonEntries limit depth entries))
      (Eval.result (ofJsonEntries limit depth
        (entries.map (Prod.map σ.name (Json.renameRules σ.name))))) := by
  induction entries with
  | nil =>
    rw [List.map_nil, result_ofJsonEntries_nil]
    exact .ok rfl
  | cons entry rest ih =>
    obtain ⟨key, value⟩ := entry
    obtain ⟨first, parts⟩ := List.forall_mem_cons.mp parts
    rw [List.map_cons, Prod.map_apply, result_ofJsonEntries_cons, result_ofJsonEntries_cons]
    refine Related.bind (first limit depth) fun rule _ same => ?_
    subst same
    refine Related.bind (ih parts) fun rules _ same => ?_
    subst same
    exact .ok rfl

theorem renameOption_orElse (f : String → String) (later : Option Rule) (rule : Rule) :
    renameOption f (later <|> some rule) = (renameOption f later <|> some (rule.rename f)) := by
  cases later with
  | none => rfl
  | some other => rfl

theorem ofJsonBody_rename (parts : ∀ entry ∈ entries, ReadRenamed report σ entry.2) :
    Related (Error.Renamed report) (fun body other => other = body.rename σ.name)
      (Eval.result (ofJsonBody limit depth entries))
      (Eval.result (ofJsonBody limit depth
        (entries.map (Prod.map σ.name (Json.renameRules σ.name))))) := by
  induction entries with
  | nil =>
    rw [List.map_nil, result_ofJsonBody_nil]
    exact .ok rfl
  | cons entry rest ih =>
    obtain ⟨key, value⟩ := entry
    obtain ⟨first, parts⟩ := List.forall_mem_cons.mp parts
    have each := isReference_eq_false_of_isReserved isReserved_eachEntry
    have named := isReference_eq_false_of_isReserved isReserved_keyEntry
    have placed := isReference_eq_false_of_isReserved isReserved_indexEntry
    -- an entry with a rule is read in both documents, and what is built from it is renamed
    have step : ∀ {build build' : Rule → Body → Body},
        (∀ rule body, build' (rule.rename σ.name) (body.rename σ.name) =
          (build rule body).rename σ.name) →
        Related (Error.Renamed report) (fun body other => other = body.rename σ.name)
          ((ofJsonAt limit depth value).result >>= fun rule =>
            (ofJsonBody limit depth rest).result >>= fun body => .ok (build rule body))
          ((ofJsonAt limit depth (value.renameRules σ.name)).result >>= fun rule =>
            (ofJsonBody limit depth (rest.map (Prod.map σ.name (Json.renameRules σ.name)))).result
              >>= fun body => .ok (build' rule body)) := by
      intro build build' same
      refine Related.bind (first limit depth) fun rule _ sameRule => ?_
      subst sameRule
      refine Related.bind (ih parts) fun body _ sameBody => ?_
      subst sameBody
      exact .ok (same rule body)
    rw [List.map_cons, Prod.map_apply, result_ofJsonBody_cons, result_ofJsonBody_cons]
    simp only [Renaming.name_eq_iff each, Renaming.name_eq_iff named,
      Renaming.name_eq_iff placed, σ.isReserved_name]
    split_ifs
    · exact ih parts
    · refine step fun rule body => ?_
      unfold Body.rename
      rw [renameOption_orElse]
    · refine step fun rule body => ?_
      unfold Body.rename
      rw [renameOption_orElse]
    · exact ih parts
    · exact step fun rule body => rfl

theorem eachPath_rename (source : Json) :
    Related (Error.Renamed report) (fun path other => other = path.rename σ.name)
      (eachPath source) (eachPath (source.renameRules σ.name)) := by
  cases source with
  | string text => exact Path.ofText_rename text
  | null => exact .error (.malformedPath _ _)
  | bool value => exact .error (.malformedPath _ _)
  | number value => exact .error (.malformedPath _ _)
  | array items => exact .error (.malformedPath _ _)
  | object entries => exact .error (.malformedPath _ _)

/-- A rule that is nested too deep is not looked at. -/
theorem readRenamed_of_shallow {value : Json}
    (shallow : ∀ {limit depth}, ¬ limit < depth →
      Related (Error.Renamed report) (fun rule other => other = rule.rename σ.name)
        (Eval.result (ofJsonAt limit depth value))
        (Eval.result (ofJsonAt limit depth (value.renameRules σ.name)))) :
    ReadRenamed report σ value := by
  intro limit depth
  by_cases deep : limit < depth
  · rw [result_ofJsonAt_deep deep, result_ofJsonAt_deep deep]
    exact .error (.tooDeep limit)
  · exact shallow deep

theorem readRenamed_of_other {value : Json} (notString : value.kind ≠ .string)
    (notObject : value.kind ≠ .object) (same : (value.renameRules σ.name).kind = value.kind) :
    ReadRenamed report σ value := by
  refine readRenamed_of_shallow fun shallow => ?_
  rw [result_ofJsonAt_other shallow notString notObject,
    result_ofJsonAt_other shallow (same ▸ notString) (same ▸ notObject), same]
  exact .error (.notARule _)

theorem readRenamed_string (source : String) : ReadRenamed report σ (.string source) := by
  have renamed : (Json.string source).renameRules σ.name =
      .string (renameSource σ.name source) := rfl
  refine readRenamed_of_shallow fun shallow => ?_
  rw [renamed, result_ofJsonAt_string shallow, result_ofJsonAt_string shallow,
    beginsWithDollar_renameSource]
  cases dollar : beginsWithDollar source with
  | true =>
    refine Related.map (Path.ofText_rename source) fun path _ same => ?_
    subst same
    rfl
  | false =>
    have noPath : Path.ofText? source = none := by
      cases parsed : Path.ofText? source with
      | none => rfl
      | some path =>
        rw [← Path.text_of_ofText? parsed, Path.beginsWithDollar_text] at dollar
        cases dollar
    rw [renameSource_of_none noPath]
    exact .ok rfl

theorem readRenamed_object {entries : List (String × Json)}
    (parts : ∀ entry ∈ entries, ReadRenamed report σ entry.2) :
    ReadRenamed report σ (.object entries) := by
  have renamed : (Json.object entries).renameRules σ.name =
      .object (entries.map (Prod.map σ.name (Json.renameRules σ.name))) :=
    Json.mapTexts_object _ _ entries
  have each : σ.name eachEntry = eachEntry :=
    σ.name_of_plain (isReference_eq_false_of_isReserved isReserved_eachEntry)
  have source : Entries.get? (entries.map (Prod.map σ.name (Json.renameRules σ.name))) eachEntry =
      (Entries.get? entries eachEntry).map (Json.renameRules σ.name) := by
    conv_lhs => rw [← each]
    exact Entries.get?_map σ.injective entries eachEntry
  refine readRenamed_of_shallow fun shallow => ?_
  rw [renamed]
  cases found : Entries.get? entries eachEntry with
  | none =>
    rw [found] at source
    rw [result_ofJsonAt_object shallow found, result_ofJsonAt_object shallow source]
    refine Related.bind (ofJsonEntries_rename parts) fun rules _ same => ?_
    subst same
    exact .ok rfl
  | some value =>
    rw [found] at source
    rw [result_ofJsonAt_each shallow found, result_ofJsonAt_each shallow source]
    refine Related.bind (eachPath_rename value) fun path _ same => ?_
    subst same
    refine Related.bind (ofJsonBody_rename parts) fun body _ same => ?_
    subst same
    exact .ok rfl

/-- Reading commutes with renaming. -/
theorem ofJsonAt_rename (value : Json) : ReadRenamed report σ value := by
  induction value with
  | null => exact readRenamed_of_other (by simp [Json.kind]) (by simp [Json.kind]) rfl
  | bool value => exact readRenamed_of_other (by simp [Json.kind]) (by simp [Json.kind]) rfl
  | number value => exact readRenamed_of_other (by simp [Json.kind]) (by simp [Json.kind]) rfl
  | array items _ => exact readRenamed_of_other (by simp [Json.kind]) (by simp [Json.kind]) rfl
  | string source => exact readRenamed_string source
  | object entries ih => exact readRenamed_object ih

end Rule

end Reading

end Reshape
