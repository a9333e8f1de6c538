import Reshape.Proofs.Listing
import Reshape.Proofs.Unread

/-!
# Rules with a text in place of a variable

A variable that is bound to a text can be evaluated away: `Rule.instantiate` puts the text in the
place of the variable, as a text of the rule and as a key in its paths. Where the variable is bound
to the text, the rule made that way evaluates to the same value (`Rule.eval_instantiate`), because
an item never binds a variable anew. And the rule does not ask for the variable any more
(`Rule.lacks_instantiate`), so that it need not be bound at all
(`Reshaper.eval_bind_string_eq_eval_instantiate`).
-/

namespace Reshape

/-! ## Putting a text in the place of a variable -/

/-- The token with `text` as a key in the place of the variable `name`. -/
def Token.instantiate (name text : String) : Token → Token
  | .key own => .key own
  | .var own => if own = name then .key text else .var own

/-- The path with `text` as a key in the place of the variable `name`. -/
def Path.instantiate (name text : String) (path : Path) : Path :=
  ⟨path.tokens.map (Token.instantiate name text)⟩

namespace Rule

mutual

/-- The rule with `text` in the place of the variable `name`, in its texts and paths; its keys stay
as they are. -/
def instantiate (name text : String) : Rule → Rule
  | .text source => .text (if source = name then text else source)
  | .path source => .path (source.instantiate name text)
  | .object entries => .object (instantiateEntries name text entries)
  | .each source key index fields =>
    .each (source.instantiate name text) (instantiateOption name text key)
      (instantiateOption name text index) (instantiateEntries name text fields)

/-- The same for a rule that may be absent. -/
def instantiateOption (name text : String) : Option Rule → Option Rule
  | none => none
  | some rule => some (instantiate name text rule)

/-- The same for entries. -/
def instantiateEntries (name text : String) : List (String × Rule) → List (String × Rule)
  | [] => []
  | (key, rule) :: rest => (key, instantiate name text rule) :: instantiateEntries name text rest

end

variable {name text : String}

theorem instantiateOption_eq (rule : Option Rule) :
    instantiateOption name text rule = rule.map (instantiate name text) := by
  cases rule with
  | none => rfl
  | some rule => rfl

theorem instantiateEntries_eq (entries : List (String × Rule)) :
    instantiateEntries name text entries = entries.map (Prod.map id (instantiate name text)) := by
  induction entries with
  | nil => rfl
  | cons entry rest ih =>
    obtain ⟨key, rule⟩ := entry
    rw [instantiateEntries, ih, List.map_cons, Prod.map_apply, id]

/-- Putting a text in the place of a variable, as a change of all parts. -/
def Map.instantiate (name text : String) : Map where
  rule := Rule.instantiate name text
  key key := key
  path := Path.instantiate name text
  object entries := by
    rw [Rule.instantiate, instantiateEntries_eq]
    rfl
  each source key index fields := by
    rw [Rule.instantiate, instantiateOption_eq, instantiateOption_eq, instantiateEntries_eq]
    rfl

theorem keys_instantiateEntries (entries : List (String × Rule)) :
    Entries.keys (instantiateEntries name text entries) = Entries.keys entries := by
  rw [instantiateEntries_eq, Entries.keys, List.map_map]
  rfl

end Rule

/-! ## The variable is not asked for any more -/

theorem Path.var_notMem_instantiate (name text : String) (path : Path) :
    Token.var name ∉ (path.instantiate name text).tokens := by
  intro member
  obtain ⟨token, _, made⟩ := List.mem_map.mp member
  cases token with
  | key own => cases made
  | var own =>
    rw [Token.instantiate] at made
    split at made
    · cases made
    · next apart => exact apart (Token.var.inj made)

/-- The name is left in no text and no path, so it is lacking if it is no key. -/
theorem Rule.lacks_instantiate {name text : String} (apart : text ≠ name) {rule : Rule}
    (absent : rule.Every fun node => name ∉ node.keys) :
    (rule.instantiate name text).Lacks name := by
  induction rule with
  | text source =>
    change (if source = name then text else source) ≠ name
    split
    · exact apart
    · assumption
  | path source => exact source.var_notMem_instantiate name text
  | object entries ih =>
    obtain ⟨keys, parts⟩ := every_object_iff.mp absent
    have keys : name ∉ Entries.keys entries := keys
    refine every_object_iff.mpr ⟨by rwa [LacksHere, keys_instantiateEntries], ?_⟩
    rw [instantiateEntries_eq]
    exact List.forall_mem_map.mpr fun entry member => ih entry member (parts entry member)
  | each source key index fields keyIh indexIh fieldIh =>
    obtain ⟨keys, keyParts, indexParts, fieldParts⟩ := every_each_iff.mp absent
    have keys : name ∉ Entries.keys fields := keys
    have closed := source.var_notMem_instantiate name text
    refine every_each_iff.mpr ⟨⟨closed, by rwa [keys_instantiateEntries]⟩, ?_, ?_, ?_⟩
    · rw [instantiateOption_eq]
      intro r same
      obtain ⟨rule, found, rfl⟩ := Option.map_eq_some_iff.mp same
      exact keyIh rule found (keyParts rule found)
    · rw [instantiateOption_eq]
      intro r same
      obtain ⟨rule, found, rfl⟩ := Option.map_eq_some_iff.mp same
      exact indexIh rule found (indexParts rule found)
    · rw [instantiateEntries_eq]
      exact List.forall_mem_map.mpr fun field member =>
        fieldIh field member (fieldParts field member)

/-! ## Evaluation where the variable is bound -/

/-- Both errors tell of as many unbound variables, the second one in the path with the text put
in. -/
inductive Error.Instantiated (name text : String) : Error → Error → Prop where
  | severalVariables (path : Path) (count : Nat) :
    Instantiated name text (.severalVariables path.text count)
      (.severalVariables (path.instantiate name text).text count)

section Evaluation

variable {name text : String} {env : Env} {missing : Missing} {context : Context}

theorem Env.value_substText_instantiate (reference : isReference name = true)
    (plain : isReference text = false) (bound : env.get? name = some (.string text))
    (source : String) :
    (env.substText (if source = name then text else source)).value =
      (env.substText source).value := by
  split
  · next same =>
    rw [value_substText, value_substText, if_neg (Bool.eq_false_iff.mp plain), same,
      if_pos reference, bound]
  · rfl

theorem Env.fill_instantiate (bound : env.get? name = some (.string text)) (tokens : List Token) :
    env.fill (tokens.map (Token.instantiate name text)) = env.fill tokens := by
  unfold fill
  rw [List.map_map]
  refine List.map_congr_left fun token _ => ?_
  cases token with
  | key own => rfl
  | var own =>
    rw [Function.comp_apply, Token.instantiate]
    split
    · next same =>
      rw [same, fillToken, fillToken, bound]
      rfl
    · rfl

/-- Both paths have the same items, or too many variables are left in either. -/
theorem Path.result_items_instantiate (bound : env.get? name = some (.string text)) (path : Path)
    (root : Json) :
    Related (Error.Instantiated name text) Eq (Eval.result (path.items root env))
      (Eval.result ((path.instantiate name text).items root env)) := by
  have filled : env.fill (path.instantiate name text).tokens = env.fill path.tokens :=
    Env.fill_instantiate bound path.tokens
  rw [result_items, result_items, filled]
  rcases Token.variableNames (env.fill path.tokens) with _ | ⟨free, _ | ⟨second, rest⟩⟩
  · exact .ok rfl
  · exact .ok rfl
  · exact .error (.severalVariables path _)

namespace Rule

/-- Where the variable is bound to the text, both rules agree, or fail with as many unbound
variables. -/
def instantiated (name text : String) (reference : isReference name = true)
    (plain : isReference text = false) (missing : Missing) :
    Agreement Json.anything (.substituting missing) (.substituting missing) where
  map := .instantiate name text
  here _ := True
  contexts context other := context = other ∧ context.env.get? name = some (.string text)
  failures := Error.Instantiated name text
  keeps _ := rfl
  admits _ _ _ := trivial
  text {source context _} _ alike := by
    obtain ⟨rfl, bound⟩ := alike
    change Related _ _ (Eval.result (Rule.eval missing (.text source) context))
      (Eval.result (Rule.eval missing (.text (if source = name then text else source)) context))
    rw [result_eval_text, result_eval_text,
      Env.value_substText_instantiate reference plain bound]
    exact .ok ⟨rfl, fun _ _ => trivial⟩
  path {source context _} _ alike := by
    obtain ⟨rfl, bound⟩ := alike
    have filled : context.env.fill (source.instantiate name text).tokens =
        context.env.fill source.tokens := Env.fill_instantiate bound source.tokens
    change Related _ _ (Eval.result (Rule.eval missing (.path source) context))
      (Eval.result (Rule.eval missing (.path (source.instantiate name text)) context))
    rw [result_eval_path, result_eval_path, filled]
    exact .ok ⟨rfl, fun _ _ => trivial⟩
  items {source _ _ _ context _} _ alike := by
    obtain ⟨rfl, bound⟩ := alike
    have kept : ∀ items, Eval.result (source.items context.root context.env) = .ok items →
        ∀ item ∈ items, item.env.get? name = context.env.get? name :=
      fun items listed item member =>
        Path.get?_of_items listed member (Option.isSome_of_eq_some bound)
    have listed := (Path.result_items_instantiate bound source context.root).and_known kept
    refine listed.mono fun items _ same => ?_
    obtain ⟨rfl, kept⟩ := same
    exact List.forall₂_same.mpr fun item member => ⟨rfl, (kept item member).trans bound⟩
  settle alike _ := ⟨by rw [alike.1], fun _ _ => trivial⟩

/-- Where the variable is bound to the text, putting the text in its place makes no difference. -/
theorem eval_instantiate (reference : isReference name = true) (plain : isReference text = false)
    (rule : Rule) (bound : context.env.get? name = some (.string text)) :
    Related (Error.Instantiated name text) Eq (Eval.result (eval missing rule context))
      (Eval.result (eval missing (rule.instantiate name text) context)) := by
  have related := (instantiated name text reference plain missing).related_eval
    (every_of_forall (fun _ => trivial) rule) ⟨rfl, bound⟩
  exact related.mono fun _ _ same => same.1

end Rule

end Evaluation

namespace Reshaper

/-- Evaluating a rule where a variable is bound to a text is evaluating the rule with the text in
the place of the variable: both come to the same value, or both fail with as many unbound
variables. -/
theorem eval_bind_string_eq_eval_instantiate (reshaper : Reshaper) {name text : String}
    (reference : isReference name = true) (plain : isReference text = false) {rule : Rule}
    (absent : rule.Every fun node => name ∉ node.keys) {document : Json}
    (avoids : document.Avoids fun text => text = name) {env : Env}
    (bound : ∀ other, other ≠ name → ∀ value ∈ env.get? other,
      value.Avoids fun text => text = name) :
    Related (Error.Instantiated name text) Eq
      (Eval.result (reshaper.eval rule document (env.bind name (.string text))))
      (Eval.result (reshaper.eval (rule.instantiate name text) document env)) := by
  have apart : text ≠ name := by
    rintro rfl
    rw [reference] at plain
    cases plain
  have lacks : (rule.instantiate name text).Lacks name := Rule.lacks_instantiate apart absent
  have written : (env.bind name (.string text)).get? name = some (.string text) := by
    rw [Env.get?_bind, if_pos rfl]
  rw [reshaper.result_eval_of_agreesOff reference lacks avoids bound
    (Env.agreesOff_bind env name (.string text)).symm]
  exact Rule.eval_instantiate reference plain rule written

/-- A row named outside, in a text, in the path of its cells and in a path below them. -/
theorem eval_bind_string_eq_eval_instantiate_row :
    let rule : Rule := .object [("row", .text ":row"),
      ("cells", .each ⟨[.key "rows", .var ":row", .var ":cell"]⟩ (some (.text ":cell")) none
        [(":cell", .text ":unit"), ("named", .path ⟨[.var ":row"]⟩)]),
      ("twice", .each ⟨[.var ":row", .var ":row"]⟩ (some (.text ":row")) none [])]
    let document : Json := .object [("rows", .object [("r", .object [
      ("x", .array [.object [("r", .ofNat 1)]]), (":unit", .string ":cell")])])]
    let env : Env := ⟨[(":unit", .string "m")]⟩
    rule.instantiate ":row" "r" = .object [("row", .text "r"),
      ("cells", .each ⟨[.key "rows", .key "r", .var ":cell"]⟩ (some (.text ":cell")) none
        [(":cell", .text ":unit"), ("named", .path ⟨[.key "r"]⟩)]),
      ("twice", .each ⟨[.key "r", .key "r"]⟩ (some (.text "r")) none [])] ∧
    Related (Error.Instantiated ":row" "r") Eq
      (Eval.result ((default : Reshaper).eval rule document (env.bind ":row" (.string "r"))))
      (Eval.result ((default : Reshaper).eval (rule.instantiate ":row" "r") document env)) := by
  intro rule document env
  refine ⟨rfl, eval_bind_string_eq_eval_instantiate default (by decide) (by decide) ?_ ?_ ?_⟩
  · simp only [rule, Rule.Every, Rule.EveryOption, Rule.EveryEntry, Rule.keys]
    decide
  · simp only [document, Json.Avoids, Json.AvoidsEntries, Json.AvoidsItems, Json.ofNat]
    decide
  · intro other _ value found
    have member := List.mem_singleton.mp (Entries.mem_of_get?_eq_some found)
    obtain rfl : value = .string "m" := congrArg Prod.snd member
    exact (by decide : ¬ "m" = ":row")

end Reshaper

end Reshape
