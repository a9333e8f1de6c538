import Reshape.Reshaper

/-!
# Results without logs

What a rule evaluates to does not depend on the events reported on the way. This module gives each
function of the evaluation an equation for its value or result alone, in terms of the values and
results of the functions it calls. Everything that is said about what comes out of a rule starts
from these equations and unfolds none of the functions again.

* `Path.result_items` lists the items of a path by a plain `flatMap` over the candidates.
* `Rule.result_eval_each` splits a repeating rule into the listing of its items, one
  `Rule.resultBody` for each of them, and `Outcome.collect`.
-/

namespace Reshape

/-! ## Lists of computations -/

section Lists

variable {α β : Type}

theorem Logged.value_mapM (f : α → Logged β) (inputs : List α) :
    (inputs.mapM f).value = inputs.map fun input => (f input).value := by
  induction inputs with
  | nil => rfl
  | cons input rest ih =>
    rw [List.mapM_cons]
    simp only [Logged.value_bind, Logged.value_pure, ih, List.map_cons]

theorem Eval.result_mapM (f : α → Eval β) (inputs : List α) :
    Eval.result (inputs.mapM f) = inputs.mapM fun input => (f input).result := by
  induction inputs with
  | nil => rfl
  | cons input rest ih =>
    rw [List.mapM_cons, List.mapM_cons]
    simp only [Eval.result_bind, Eval.result_pure, ih]
    rfl

end Lists

/-! ## Writing into objects -/

namespace Missing

variable (missing : Missing) (written : Entries Json) (key : String)

@[simp] theorem value_put_some (value : Json) :
    (missing.put written key (some value)).value = Entries.insert written key value := rfl

@[simp] theorem value_put_asNull_none :
    (asNull.put written key none).value = Entries.insert written key .null := rfl

@[simp] theorem value_put_omitted_none : (omitted.put written key none).value = written := rfl

variable {missing} in
theorem orNull_of_written? {value : Option Json} {inserted : Json}
    (written : missing.written? value = some inserted) : Json.orNull value = inserted := by
  cases value with
  | some value => exact Option.some.inj written
  | none =>
    cases missing with
    | asNull => exact Option.some.inj written
    | omitted => cases written

/-- A write either inserts a value or changes nothing. -/
theorem value_put_cases (value : Option Json) :
    (∃ inserted, missing.written? value = some inserted ∧
      (missing.put written key value).value = Entries.insert written key inserted) ∨
    (missing.put written key value).value = written := by
  cases value with
  | some value => exact Or.inl ⟨value, rfl, rfl⟩
  | none =>
    cases missing with
    | asNull => exact Or.inl ⟨.null, rfl, rfl⟩
    | omitted => exact Or.inr rfl

end Missing

/-! ## Following paths and substituting -/

theorem Json.value_follow_cons (document : Json) (token : Token) (rest : List Token) :
    (document.follow (token :: rest)).value =
      (document.child? token).bind fun value => (value.follow rest).value := by
  rw [Json.follow]
  cases document.child? token with
  | none => rfl
  | some value => rfl

namespace Env

variable (env : Env) (missing : Missing)

@[simp] theorem value_read (name : String) : (env.read name).value = env.get? name := by
  unfold Env.read
  cases env.get? name with
  | none => rfl
  | some value => rfl

theorem value_substText (text : String) :
    (env.substText text).value =
      if isReference text then env.get? text else some (.string text) := by
  unfold substText
  split
  · exact env.value_read text
  · rfl

theorem value_substKey (key : String) :
    (env.substKey key).value =
      if isReference key then (env.get? key).map Json.asKey else some key := by
  unfold substKey
  split
  · cases env.get? key with
    | none => rfl
    | some value => rfl
  · rfl

theorem value_substItems (items : List Json) :
    (env.substItems missing items).value =
      items.map fun item => Json.orNull (env.subst missing item).value := by
  induction items with
  | nil => rfl
  | cons item rest ih =>
    rw [substItems]
    simp only [Logged.value_bind, Logged.value_pure, ih, List.map_cons]

theorem value_subst_array (items : List Json) :
    (env.subst missing (.array items)).value =
      some (.array (items.map fun item => Json.orNull (env.subst missing item).value)) := by
  rw [subst]
  simp only [Logged.value_bind, Logged.value_pure, value_substItems]

theorem value_subst_object (entries : List (String × Json)) :
    (env.subst missing (.object entries)).value =
      some (.object (env.substEntries missing [] entries).value) := by
  rw [subst]
  rfl

@[simp] theorem value_substEntries_nil (written : Entries Json) :
    (env.substEntries missing written []).value = written := by
  rw [substEntries]
  rfl

theorem value_substEntries_cons (written : Entries Json) (key : String) (value : Json)
    (rest : List (String × Json)) :
    (env.substEntries missing written ((key, value) :: rest)).value =
      match (env.substKey key).value with
      | none => (env.substEntries missing written rest).value
      | some key =>
        (env.substEntries missing
          (missing.put written key (env.subst missing value).value).value rest).value := by
  rw [substEntries, Logged.value_bind]
  cases (env.substKey key).value with
  | none => rfl
  | some key => rfl

theorem value_substOption (value : Option Json) :
    (env.substOption missing value).value =
      value.bind fun value => (env.subst missing value).value := by
  cases value with
  | none => rfl
  | some value => rfl

end Env

/-! ## Items of a path -/

namespace Path

theorem value_itemsAlong (root : Json) (env : Env) (before : List Token) (name : String)
    (after : List Token) :
    (itemsAlong root env before name after).value =
      (Json.candidates (root.follow before).value).flatMap fun candidate =>
        (env.bind name candidate).itemsOf
          (root.follow (before ++ .key candidate.asKey :: after)).value := by
  unfold itemsAlong
  simp only [Logged.value_bind, Logged.value_pure, Logged.value_mapM]
  rfl

theorem result_items (path : Path) (root : Json) (env : Env) :
    Eval.result (path.items root env) =
      match Token.variableNames (env.fill path.tokens) with
      | [] => .ok (env.itemsOf (root.follow (env.fill path.tokens)).value)
      | [name] =>
        .ok (itemsAlong root env
          ((env.fill path.tokens).takeWhile fun token => !token.isVariable) name
          (((env.fill path.tokens).dropWhile fun token => !token.isVariable).drop 1)).value
      | names => .error (.severalVariables path.text names.length) := by
  unfold items
  dsimp only
  rcases Token.variableNames (env.fill path.tokens) with _ | ⟨name, _ | ⟨other, rest⟩⟩
  · rfl
  · rfl
  · rfl

end Path

/-! ## Outcomes -/

namespace Outcome

/-- The value that outcomes are collected into. -/
def collect (keyed : Bool) (outcomes : List Outcome) : Json :=
  if keyed then (toObject outcomes).value else (toArray outcomes).value

theorem value_putAll_cons (written : Entries Json) (outcome : Outcome) (rest : List Outcome) :
    (putAll written (outcome :: rest)).value =
      match outcome.key with
      | some key => (putAll (Entries.insert written key.asKey outcome.output) rest).value
      | none => (putAll written rest).value := by
  rw [putAll]
  cases outcome.key with
  | none => rfl
  | some key => rfl

theorem value_place (index : Option Json) (position : Nat) :
    (place index position).value =
      match index with
      | some (.number value) => value.toDouble
      | some (.string text) => (Double.ofText? text).getD (Double.ofNat false position)
      | _ => Double.ofNat false position := by
  cases index with
  | none => rfl
  | some value =>
    cases value with
    | null => rfl
    | bool value => rfl
    | number value => rfl
    | string text =>
      unfold place
      dsimp only
      cases Double.ofText? text with
      | none => rfl
      | some value => rfl
    | array items => rfl
    | object entries => rfl

theorem value_placeAll_cons (position : Nat) (outcome : Outcome) (rest : List Outcome) :
    (placeAll position (outcome :: rest)).value =
      ((place outcome.index position).value, outcome) ::
        (placeAll (position + 1) rest).value := by
  rw [placeAll]
  simp only [Logged.value_bind, Logged.value_pure]

/-- Placing outcomes keeps them and their order. -/
theorem map_snd_value_placeAll (position : Nat) (outcomes : List Outcome) :
    (placeAll position outcomes).value.map Prod.snd = outcomes := by
  induction outcomes generalizing position with
  | nil => rfl
  | cons outcome rest ih => rw [value_placeAll_cons, List.map_cons, ih]

/-- Outcomes in the order of their places. -/
def sorted (outcomes : List Outcome) : List Outcome :=
  ((placeAll 0 outcomes).value.mergeSort fun a b => a.1.orderKey ≤ b.1.orderKey).map Prod.snd

theorem value_toArray (outcomes : List Outcome) :
    (toArray outcomes).value = .array ((sorted outcomes).map output) := by
  rw [sorted, List.map_map]
  rfl

/-- Sorting outcomes loses none and makes up none. -/
theorem perm_sorted (outcomes : List Outcome) : (sorted outcomes).Perm outcomes := by
  have perm := (List.mergeSort_perm (placeAll 0 outcomes).value fun a b =>
    a.1.orderKey ≤ b.1.orderKey).map Prod.snd
  rw [map_snd_value_placeAll] at perm
  exact perm

end Outcome

/-! ## Rules -/

namespace Rule

variable (missing : Missing) (context : Context)

theorem result_eval_text (source : String) :
    Eval.result (eval missing (.text source) context) =
      .ok (context.env.substText source).value := by
  rw [eval]
  rfl

theorem result_eval_path (source : Path) :
    Eval.result (eval missing (.path source) context) =
      .ok ((context.current.follow (context.env.fill source.tokens)).value.bind fun value =>
        (context.env.subst missing value).value) := by
  rw [eval]
  simp only [Eval.result_bind, Eval.result_lift]
  cases (context.current.follow (context.env.fill source.tokens)).value with
  | none => rfl
  | some value => rfl

theorem result_eval_object (entries : List (String × Rule)) :
    Eval.result (eval missing (.object entries) context) = do
      let entries ← (evalEntries missing entries context []).result
      return some (.object entries) := by
  rw [eval]
  simp only [Eval.result_bind, Eval.result_pure]
  rfl

/-- The outcome of a body, without the log. -/
def resultBody (missing : Missing) (key index : Option Rule) (fields : List (String × Rule))
    (context : Context) : Except Error Outcome := do
  let key ← (evalOption missing key context).result
  let index ← (evalOption missing index context).result
  let fields ← (evalEntries missing fields context []).result
  return { key, index, fields }

theorem result_eval_each (source : Path) (key index : Option Rule)
    (fields : List (String × Rule)) :
    Eval.result (eval missing (.each source key index fields) context) = do
      let items ← (source.items context.root context.env).result
      let outcomes ← items.mapM fun item =>
        resultBody missing key index fields (context.enter item)
      return some (Outcome.collect key.isSome outcomes) := by
  rw [eval]
  simp only [Eval.result_bind, Eval.result_mapM, Eval.result_pure, Eval.result_lift]
  cases key with
  | none => rfl
  | some key => rfl

theorem result_evalOption_none :
    Eval.result (evalOption missing none context) = .ok none := by
  rw [evalOption]
  rfl

theorem result_evalOption_some (rule : Rule) :
    Eval.result (evalOption missing (some rule) context) = do
      let value ← (eval missing rule context).result
      return (context.env.substOption missing value).value := by
  rw [evalOption]
  simp only [Eval.result_bind, Eval.result_lift]
  rfl

theorem result_evalEntries_nil (written : Entries Json) :
    Eval.result (evalEntries missing [] context written) = .ok written := by
  rw [evalEntries]
  rfl

theorem result_evalEntries_cons (key : String) (rule : Rule) (rest : List (String × Rule))
    (written : Entries Json) :
    Eval.result (evalEntries missing ((key, rule) :: rest) context written) =
      (eval missing rule context).result >>= fun value =>
        (evalEntries missing rest context
          (missing.put written key
            (context.env.substOption missing value).value).value).result := by
  rw [evalEntries]
  simp only [Eval.result_bind, Eval.result_lift]
  rfl

end Rule

namespace Reshaper

variable (reshaper : Reshaper)

theorem result_apply (rules : RuleSet) (input : Json) :
    Eval.result (reshaper.apply rules input) = do
      let entries ← (Rule.evalEntries reshaper.config.missing rules.entries
        (.ofDocument input .empty) []).result
      return .object entries := by
  unfold apply
  simp only [Eval.result_bind, Eval.result_pure]
  rfl

theorem result_transform (input rules : Json) :
    Eval.result (reshaper.transform input rules) =
      (reshaper.readRules rules).result >>= fun rules => (reshaper.apply rules input).result := by
  unfold transform
  simp only [Eval.result_bind]

end Reshaper

end Reshape
