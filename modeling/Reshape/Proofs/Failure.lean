import Reshape.Proofs.Parts
import Reshape.Proofs.Results

/-!
# Failures of evaluation

A rule is evaluated part by part, and evaluation ends at the first part that fails, with the error
of this part. `failure?` is the error that a result is, if it is one. Its equations leave out the
values that are computed on the way: no step of evaluation adds an error of its own, apart from the
listing of items (`Rule.failure?_eval_each`), and whether an entry fails does not depend on what
was written before (`Rule.failure?_evalEntries`).
-/

namespace Reshape

section Results

variable {α β : Type}

/-- The error of a computation that failed. -/
def failure? : Except Error α → Option Error
  | .ok _ => none
  | .error error => some error

@[simp] theorem failure?_ok (value : α) : failure? (.ok value : Except Error α) = none := rfl

@[simp] theorem failure?_error (error : Error) :
    failure? (.error error : Except Error α) = some error := rfl

theorem failure?_eq_none_iff {result : Except Error α} :
    failure? result = none ↔ ∃ value, result = .ok value := by
  cases result with
  | ok value => exact ⟨fun _ => ⟨value, rfl⟩, fun _ => rfl⟩
  | error error => exact ⟨nofun, nofun⟩

theorem failure?_eq_some_iff {result : Except Error α} {error : Error} :
    failure? result = some error ↔ result = .error error := by
  cases result with
  | ok value => exact ⟨nofun, nofun⟩
  | error other => rw [failure?_error, Option.some_inj, Except.error.injEq]

/-- A second computation that fails in one way, whatever it starts from. -/
theorem failure?_bind {first : Except Error α} {next : α → Except Error β}
    {later : Option Error} (same : ∀ value, failure? (next value) = later) :
    failure? (first >>= next) = (failure? first).or later := by
  cases first with
  | ok value => exact same value
  | error error => rfl

/-- A second computation that never fails. -/
theorem failure?_bind_of_ok {first : Except Error α} {next : α → Except Error β}
    (succeeds : ∀ value, failure? (next value) = none) :
    failure? (first >>= next) = failure? first :=
  (failure?_bind succeeds).trans Option.or_none

/-- A search stops at the first input or goes on behind it. -/
theorem findSome?_cons_eq_or (f : α → Option β) (first : α) (rest : List α) :
    (first :: rest).findSome? f = (f first).or (rest.findSome? f) := by
  rw [List.findSome?_cons]
  cases f first with
  | none => rfl
  | some found => rfl

theorem failure?_mapM (next : α → Except Error β) (inputs : List α) :
    failure? (inputs.mapM next) = inputs.findSome? fun input => failure? (next input) := by
  induction inputs with
  | nil => rfl
  | cons input rest ih =>
    rw [List.mapM_cons, failure?_bind fun value => failure?_bind_of_ok fun values => rfl, ih,
      findSome?_cons_eq_or]

end Results

namespace Rule

variable (missing : Missing) (context : Context)

theorem failure?_eval_text (source : String) :
    failure? (eval missing (.text source) context).result = none := by
  rw [result_eval_text, failure?_ok]

theorem failure?_eval_path (source : Path) :
    failure? (eval missing (.path source) context).result = none := by
  rw [result_eval_path, failure?_ok]

theorem failure?_evalOption (rule : Option Rule) :
    failure? (evalOption missing rule context).result =
      rule.toList.findSome? fun part => failure? (eval missing part context).result := by
  cases rule with
  | none => rw [result_evalOption_none, failure?_ok, Option.toList_none, List.findSome?_nil]
  | some rule =>
    rw [result_evalOption_some, failure?_bind_of_ok fun value => rfl, Option.toList_some,
      List.findSome?_singleton]

/-- The entries fail with the first of them that does. -/
theorem failure?_evalEntries (entries : List (String × Rule)) (written : Entries Json) :
    failure? (evalEntries missing entries context written).result =
      entries.findSome? fun entry => failure? (eval missing entry.2 context).result := by
  induction entries generalizing written with
  | nil => rw [result_evalEntries_nil, failure?_ok, List.findSome?_nil]
  | cons entry rest ih =>
    obtain ⟨key, rule⟩ := entry
    rw [result_evalEntries_cons, failure?_bind fun value => ih _, findSome?_cons_eq_or]

theorem failure?_eval_object (entries : List (String × Rule)) :
    failure? (eval missing (.object entries) context).result =
      (Rule.object entries).parts.findSome? fun part =>
        failure? (eval missing part context).result := by
  rw [result_eval_object, failure?_bind_of_ok fun value => rfl, failure?_evalEntries, parts,
    List.findSome?_map]
  rfl

/-- The body of a repeating rule fails with the first part of the rule that does. -/
theorem failure?_resultBody (source : Path) (key index : Option Rule)
    (fields : List (String × Rule)) :
    failure? (resultBody missing key index fields context) =
      (Rule.each source key index fields).parts.findSome? fun part =>
        failure? (eval missing part context).result := by
  unfold resultBody
  rw [failure?_bind fun key => failure?_bind fun index => failure?_bind_of_ok fun fields => rfl,
    failure?_evalOption, failure?_evalOption, failure?_evalEntries, parts,
    List.findSome?_append, List.findSome?_append, List.findSome?_map, Option.or_assoc]
  rfl

/-- A repeating rule fails with the listing of its items, or else with the first item that does. -/
theorem failure?_eval_each (source : Path) (key index : Option Rule)
    (fields : List (String × Rule)) :
    failure? (eval missing (.each source key index fields) context).result =
      match (source.items context.root context.env).result with
      | .ok items => items.findSome? fun item =>
          (Rule.each source key index fields).parts.findSome? fun part =>
            failure? (eval missing part (context.enter item)).result
      | .error error => some error := by
  rw [result_eval_each]
  cases (source.items context.root context.env).result with
  | error error => rfl
  | ok items =>
    change failure? (items.mapM _ >>= _) = _
    rw [failure?_bind_of_ok fun outcomes => rfl, failure?_mapM]
    simp only [failure?_resultBody _ _ source]

end Rule

end Reshape
