import Mathlib.Data.List.Forall2
import Reshape.Proofs.Lockstep

/-!
# Variables that are not read

A variable that occurs neither in a rule nor in the documents around it is never looked up: no
text, key or path asks for it, and evaluation makes no reference that was not there before. So two
environments that agree on all other names (`Env.AgreesOff`) cannot be told apart, whatever they
bind the variable to, even to values in which it occurs again.

* `Env.AgreesOff.value_subst`: substitution in a value without the name.
* `Path.forall₂_items`: both environments list the same items.
* `Rule.unread`: rules evaluate to the same result in both, and the name does not occur in it.
* `Reshaper.result_eval_bind_of_lacks`: binding such a variable changes nothing.
-/

namespace Reshape

/-! ## Values without a name -/

/-- The family of the values in which a reference does not occur. -/
def Json.lacking {name : String} (reference : isReference name = true) : Json.Family :=
  avoiding (fun text => text = name) fun _ same => same ▸ reference

/-! ## Environments that agree on all other names -/

/-- The environments bind all names but one alike. -/
def Env.AgreesOff (name : String) (env other : Env) : Prop :=
  ∀ key, key ≠ name → env.get? key = other.get? key

namespace Env

variable {name : String} {env other : Env} {missing : Missing}

theorem agreesOff_bind (env : Env) (name : String) (value : Json) :
    (env.bind name value).AgreesOff name env := by
  intro key apart
  rw [get?_bind, if_neg (Ne.symm apart)]

namespace AgreesOff

theorem symm (agrees : env.AgreesOff name other) : other.AgreesOff name env :=
  fun key apart => (agrees key apart).symm

theorem trans {third : Env} (first : env.AgreesOff name other)
    (second : other.AgreesOff name third) : env.AgreesOff name third :=
  fun key apart => (first key apart).trans (second key apart)

theorem bind (agrees : env.AgreesOff name other) (key : String) (value : Json) :
    (env.bind key value).AgreesOff name (other.bind key value) := by
  intro found apart
  rw [get?_bind, get?_bind, agrees found apart]

theorem value_substText (agrees : env.AgreesOff name other) {text : String} (apart : text ≠ name) :
    (env.substText text).value = (other.substText text).value := by
  rw [Env.value_substText, Env.value_substText, agrees text apart]

theorem value_substKey (agrees : env.AgreesOff name other) {key : String} (apart : key ≠ name) :
    (env.substKey key).value = (other.substKey key).value := by
  rw [Env.value_substKey, Env.value_substKey, agrees key apart]

theorem value_substEntries (agrees : env.AgreesOff name other) {entries : List (String × Json)}
    (keys : ∀ entry ∈ entries, entry.1 ≠ name)
    (parts : ∀ entry ∈ entries,
      (env.subst missing entry.2).value = (other.subst missing entry.2).value)
    (written : Entries Json) :
    (env.substEntries missing written entries).value =
      (other.substEntries missing written entries).value := by
  induction entries generalizing written with
  | nil => rw [value_substEntries_nil, value_substEntries_nil]
  | cons entry rest ih =>
    obtain ⟨key, value⟩ := entry
    obtain ⟨apart, keys⟩ := List.forall_mem_cons.mp keys
    obtain ⟨first, parts⟩ := List.forall_mem_cons.mp parts
    rw [value_substEntries_cons, value_substEntries_cons, agrees.value_substKey apart, first]
    cases (other.substKey key).value with
    | none => exact ih keys parts written
    | some key => exact ih keys parts _

/-- Both environments substitute alike in a value without the name. -/
theorem value_subst (agrees : env.AgreesOff name other) {value : Json}
    (avoids : value.Avoids fun text => text = name) :
    (env.subst missing value).value = (other.subst missing value).value := by
  induction value with
  | null => rfl
  | bool value => rfl
  | number value => rfl
  | string text => exact agrees.value_substText avoids
  | array items ih =>
    have parts := Json.avoids_array_iff.mp avoids
    rw [value_subst_array, value_subst_array]
    refine congrArg (fun items => some (Json.array items))
      (List.map_congr_left fun item member => ?_)
    rw [ih item member (parts item member)]
  | object entries ih =>
    have parts := Json.avoids_object_iff.mp avoids
    rw [value_subst_object, value_subst_object,
      agrees.value_substEntries (fun entry member => (parts entry member).1)
        fun entry member => ih entry member (parts entry member).2]

theorem value_substOption (agrees : env.AgreesOff name other) {value : Option Json}
    (avoids : ∀ v ∈ value, v.Avoids fun text => text = name) :
    (env.substOption missing value).value = (other.substOption missing value).value := by
  rw [Env.value_substOption, Env.value_substOption]
  cases value with
  | none => rfl
  | some value => exact agrees.value_subst (avoids value rfl)

theorem fill (agrees : env.AgreesOff name other) {tokens : List Token}
    (absent : Token.var name ∉ tokens) : env.fill tokens = other.fill tokens := by
  refine List.map_congr_left fun token member => ?_
  cases token with
  | key text => rfl
  | var key =>
    have apart : key ≠ name := fun same => absent (same ▸ member)
    rw [fillToken, fillToken, agrees key apart]

end AgreesOff

end Env

/-! ## Items -/

/-- One value, in environments that agree on all names but one. -/
structure Item.AgreesOff (name : String) (item other : Item) : Prop where
  value : item.value = other.value
  env : item.env.AgreesOff name other.env

section Items

variable {name : String} {env other : Env}

theorem Env.AgreesOff.itemsOf (agrees : env.AgreesOff name other) (value : Option Json) :
    List.Forall₂ (Item.AgreesOff name) (env.itemsOf value) (other.itemsOf value) := by
  unfold Env.itemsOf
  rw [List.forall₂_map_left_iff, List.forall₂_map_right_iff]
  exact List.forall₂_same.mpr fun part _ => ⟨rfl, agrees⟩

/-- A path without the name has the same items in both environments, and they agree again. -/
theorem Path.forall₂_items (agrees : env.AgreesOff name other) {path : Path}
    (absent : Token.var name ∉ path.tokens) (root : Json) :
    Related Eq (List.Forall₂ (Item.AgreesOff name)) (Eval.result (path.items root env))
      (Eval.result (path.items root other)) := by
  rw [result_items, result_items, ← agrees.fill absent]
  rcases Token.variableNames (env.fill path.tokens) with _ | ⟨free, _ | ⟨second, rest⟩⟩
  · exact .ok (agrees.itemsOf _)
  · refine .ok ?_
    rw [value_itemsAlong, value_itemsAlong]
    generalize Json.candidates _ = candidates
    induction candidates with
    | nil => exact .nil
    | cons candidate rest ih =>
      rw [List.flatMap_cons, List.flatMap_cons]
      exact List.rel_append ((agrees.bind free candidate).itemsOf _) ih
  · exact .error rfl

end Items

/-! ## Evaluation -/

namespace Rule

/-- The name is not the text of the rule, and neither a key nor a variable of a path in it, apart
from the rules inside it. -/
def LacksHere (name : String) : Rule → Prop
  | .text source => source ≠ name
  | .path source => Token.var name ∉ source.tokens
  | .object entries => name ∉ Entries.keys entries
  | .each source _ _ fields => Token.var name ∉ source.tokens ∧ name ∉ Entries.keys fields

/-- The name occurs nowhere in the rule: not as a text, a key or a variable of a path. -/
def Lacks (name : String) (rule : Rule) : Prop := rule.Every (LacksHere name)

/-- The same context with an environment that agrees on all names but one, within the family of the
values in which this name does not occur. -/
structure AgreesOff (name : String) (reference : isReference name = true)
    (context other : Context) : Prop where
  root : context.root = other.root
  current : context.current = other.current
  env : context.env.AgreesOff name other.env
  within : (Json.lacking reference).Within context

/-- A rule without the name evaluates alike in environments that agree on all other names. -/
def unread (name : String) (reference : isReference name = true) (missing : Missing) :
    Agreement (Json.lacking reference) (.substituting missing) (.substituting missing) where
  map := .id
  here := LacksHere name
  contexts := AgreesOff name reference
  failures := Eq
  keeps := Map.key_id
  admits {rule} lacks key member := by
    rintro rfl
    cases rule with
    | text source => cases member
    | path source => cases member
    | object entries => exact lacks member
    | each source key index fields => exact lacks.2 member
  text {source context other} lacks alike := by
    change Related _ _ (Eval.result (Rule.eval missing (.text source) context))
      (Eval.result (Rule.eval missing (.text source) other))
    rw [result_eval_text, result_eval_text, ← alike.env.value_substText lacks]
    exact Agree.of_ok (Json.Family.holds_substText alike.within.env source)
  path {source context other} lacks alike := by
    have holds := (Json.lacking reference).holds_follow alike.within.current
      (context.env.fill source.tokens)
    change Related _ _ (Eval.result (Rule.eval missing (.path source) context))
      (Eval.result (Rule.eval missing (.path source) other))
    rw [result_eval_path, result_eval_path, ← alike.current, ← alike.env.fill lacks,
      ← Env.value_substOption, ← Env.value_substOption, ← alike.env.value_substOption holds]
    exact Agree.of_ok (Json.Family.holds_substOption alike.within.env _)
  items {source _ _ _ context other} lacks alike := by
    have listed := (Path.forall₂_items alike.env lacks.1 context.root).and_known
      fun items listed => Json.Family.holdsItem_of_items alike.within.root alike.within.env listed
    rw [← alike.root]
    refine listed.mono fun items others same => ?_
    refine ((List.forall₂_and_left _ _).mpr ⟨same.2, same.1⟩).imp fun item item' related => ?_
    exact ⟨alike.root, related.2.value, related.2.env, alike.within.enter related.1⟩
  settle {context other value} alike lacks :=
    ⟨alike.env.value_substOption lacks, Json.Family.holds_substOption alike.within.env value⟩

theorem agree_eval_off {name : String} {reference : isReference name = true} {missing : Missing}
    {rule : Rule} (lacks : rule.Lacks name) {context other : Context}
    (alike : AgreesOff name reference context other) :
    Agree (Json.lacking reference).HoldsOption (eval missing rule context).result
      (eval missing rule other).result :=
  (unread name reference missing).related_eval lacks alike

end Rule

namespace Reshaper

section Unread

variable {name : String} {rule : Rule} {document : Json} {env : Env}

/-- Environments that agree on all names but one, which occurs neither in the rule nor in the
document nor in a value bound to another name, cannot be told apart. -/
theorem result_eval_of_agreesOff (reshaper : Reshaper) (reference : isReference name = true)
    (lacks : rule.Lacks name) (avoids : document.Avoids fun text => text = name)
    (bound : ∀ other, other ≠ name → ∀ value ∈ env.get? other,
      value.Avoids fun text => text = name) {other : Env} (agrees : env.AgreesOff name other) :
    Eval.result (reshaper.eval rule document env) =
      Eval.result (reshaper.eval rule document other) := by
  -- both are compared to an environment in which the name does not occur at all
  let bare : Env := env.bind name .null
  have within : (Json.lacking reference).Within (.ofDocument document bare) := by
    refine ⟨avoids, avoids, fun key value member => ?_⟩
    have member : value ∈ bare.get? key := member
    rw [Env.get?_bind] at member
    split at member
    · cases member
      trivial
    · next apart => exact bound key (Ne.symm apart) value member
  have same : ∀ other : Env, bare.AgreesOff name other →
      Eval.result (reshaper.eval rule document bare) =
        Eval.result (reshaper.eval rule document other) :=
    fun other agrees =>
      have alike : Rule.AgreesOff name reference (.ofDocument document bare)
          (.ofDocument document other) := ⟨rfl, rfl, agrees, within⟩
      (Rule.agree_eval_off lacks alike).eq
  have unbound : bare.AgreesOff name env := Env.agreesOff_bind env name .null
  rw [← same env unbound, same other (unbound.trans agrees)]

/-- A variable that occurs neither in a rule nor in the document nor in a value bound to another
variable has no influence: whatever it is bound to, even a value in which variables occur, the rule
evaluates to the same result or fails with the same error, as it does where the variable is bound as
before or not at all. -/
theorem result_eval_bind_of_lacks (reshaper : Reshaper) (reference : isReference name = true)
    (lacks : rule.Lacks name) (avoids : document.Avoids fun text => text = name)
    (bound : ∀ other, other ≠ name → ∀ value ∈ env.get? other,
      value.Avoids fun text => text = name) (value : Json) :
    Eval.result (reshaper.eval rule document (env.bind name value)) =
      Eval.result (reshaper.eval rule document env) :=
  (reshaper.result_eval_of_agreesOff reference lacks avoids bound
    (Env.agreesOff_bind env name value).symm).symm

/-- Rows collected under their names, where a variable that nothing asks for is bound to a value
full of variables, one of them its own. -/
theorem result_eval_bind_of_lacks_rows :
    let rule : Rule := .each ⟨[.key "rows", .var ":row"]⟩ (some (.text ":row")) none
      [("cells", .object [(":row", .text ":unit"), ("all", .path ⟨[.key "$key"]⟩)]),
        ("other", .text ":other")]
    let document : Json := .object [("rows", .object [("r1", .object [("x", .ofNat 2)]),
      (":unit", .object [(":other", .null)])])]
    let env : Env := ⟨[(":unit", .string "m"), (":v", .null)]⟩
    let value : Json := .object [(":v", .string ":row"), (":row", .string ":v")]
    Eval.result ((default : Reshaper).eval rule document (env.bind ":v" value)) =
      .ok (some (.object [
        ("r1", .object [("cells", .object [("r1", .string "m"), ("all", .string "x")]),
          ("other", .null)]),
        ("m", .object [("cells", .object [(":unit", .string "m"), ("all", .null)]),
          ("other", .null)])])) := by
  intro rule document env value
  have lacks : rule.Lacks ":v" := by
    simp only [rule, Rule.Lacks, Rule.Every, Rule.EveryOption, Rule.EveryEntry, Rule.LacksHere]
    decide
  have avoids : document.Avoids fun text => text = ":v" := by
    simp only [document, Json.Avoids, Json.AvoidsEntries, Json.ofNat]
    decide
  have bound : ∀ other, other ≠ ":v" → ∀ value ∈ env.get? other,
      value.Avoids fun text => text = ":v" := by
    intro other apart value found
    have member := Entries.mem_of_get?_eq_some found
    simp only [env, List.mem_cons, Prod.mk.injEq, List.not_mem_nil, or_false] at member
    rcases member with ⟨_, rfl⟩ | ⟨same, _⟩
    · exact (by decide : ¬ "m" = ":v")
    · exact absurd same apart
  rw [result_eval_bind_of_lacks default (by decide) lacks avoids bound value]
  decide +kernel

end Unread

end Reshaper

end Reshape
