import Reshape.Proofs.Results
import Reshape.Proofs.Writes

/-!
# Objects written entry by entry

Substitution and evaluation write an object pair by pair, each a key with a value that may be
missing, and keys may come up several times. Which pairs count is a matter of the setting for
missing values (`Missing.effective`). Of these the object holds each key once, in the order in which
the keys come up first, with its last value: `Missing.object_of_effective_writes` says so for pairs
in a row, for objects under substitution and for objects of rules.
-/

namespace Reshape

/-! ## Pairs in a row -/

namespace Missing

variable (missing : Missing)

/-- The pairs that count: all of them, with `null` for a missing value, or only those with a
value. -/
def effective : Missing → List (String × Option Json) → List (String × Json)
  | .asNull, pairs => pairs.map fun pair => (pair.1, pair.2.getD .null)
  | .omitted, pairs => pairs.filterMap fun pair => pair.2.map fun value => (pair.1, value)

/-- Write pairs one after another. -/
def putAll (missing : Missing) (written : Entries Json) (pairs : List (String × Option Json)) :
    Logged (Entries Json) :=
  pairs.foldlM (fun written pair => missing.put written pair.1 pair.2) written

theorem value_putAll_cons (written : Entries Json) (key : String) (value : Option Json)
    (rest : List (String × Option Json)) :
    (missing.putAll written ((key, value) :: rest)).value =
      (missing.putAll (missing.put written key value).value rest).value := by
  rw [putAll, List.foldlM_cons]
  rfl

/-- A pair that counts is written in front of the others, and one that does not changes nothing. -/
theorem insertAll_effective_cons (written : Entries Json) (key : String) (value : Option Json)
    (rest : List (String × Option Json)) :
    Entries.insertAll written (missing.effective ((key, value) :: rest)) =
      Entries.insertAll (missing.put written key value).value (missing.effective rest) := by
  cases missing with
  | asNull =>
    cases value with
    | none => rfl
    | some value => rfl
  | omitted =>
    cases value with
    | none => rfl
    | some value => rfl

/-- The pairs that count are all that is written. -/
theorem value_putAll (written : Entries Json) (pairs : List (String × Option Json)) :
    (missing.putAll written pairs).value =
      Entries.insertAll written (missing.effective pairs) := by
  induction pairs generalizing written with
  | nil => cases missing <;> rfl
  | cons pair rest ih =>
    obtain ⟨key, value⟩ := pair
    rw [value_putAll_cons, ih, insertAll_effective_cons]

end Missing

/-! ## Substitution -/

namespace Env

variable (env : Env) (missing : Missing)

/-- The pairs that substitution writes for entries: a reference moves to the text of the value that
is bound to it, and an entry whose reference is unbound is left out. -/
def substPairs (entries : List (String × Json)) : List (String × Option Json) :=
  entries.filterMap fun entry =>
    (if isReference entry.1 then (env.get? entry.1).map Json.asKey else some entry.1).map
      fun key => (key, (env.subst missing entry.2).value)

theorem value_substEntries (written : Entries Json) (entries : List (String × Json)) :
    (env.substEntries missing written entries).value =
      (missing.putAll written (env.substPairs missing entries)).value := by
  induction entries generalizing written with
  | nil =>
    rw [value_substEntries_nil]
    rfl
  | cons entry rest ih =>
    obtain ⟨key, value⟩ := entry
    rw [value_substEntries_cons, value_substKey, substPairs, List.filterMap_cons]
    cases (if isReference key then (env.get? key).map Json.asKey else some key) with
    | none => exact ih written
    | some key =>
      dsimp only [Option.map_some]
      rw [Missing.value_putAll_cons]
      exact ih _

end Env

/-! ## Evaluation -/

namespace Rule

section Pairs

variable {missing : Missing} {part : Rule → Except Error (Option Json)}

/-- The pair of an entry, if its rule is a part that comes to a value. -/
def pairOf (part : Rule → Except Error (Option Json)) (entry : String × Rule) :
    Except Error (String × Option Json) := do
  let value ← part entry.2
  return (entry.1, value)

/-- Entries that are evaluated and written one after another can be evaluated to pairs first, up to
the first error. -/
theorem eq_mapM_pairOf (run : List (String × Rule) → Entries Json → Except Error (Entries Json))
    (nil : ∀ written, run [] written = .ok written)
    (cons : ∀ key rule rest written, run ((key, rule) :: rest) written =
      part rule >>= fun value => run rest (missing.put written key value).value)
    (rules : List (String × Rule)) (written : Entries Json) :
    run rules written = do
      let pairs ← rules.mapM (pairOf part)
      return (missing.putAll written pairs).value := by
  induction rules generalizing written with
  | nil => exact nil written
  | cons entry rest ih =>
    obtain ⟨key, rule⟩ := entry
    rw [cons, List.mapM_cons, pairOf]
    simp only [bind_assoc, pure_bind]
    refine bind_congr fun value => ?_
    rw [ih]
    simp only [Missing.value_putAll_cons]

end Pairs

variable (missing : Missing) (context : Context)

/-- The pair that evaluation writes for an entry. -/
def evalPair (entry : String × Rule) : Except Error (String × Option Json) := do
  let value ← (eval missing entry.2 context).result
  return (entry.1, (context.env.substOption missing value).value)

/-- Entries are evaluated to pairs, up to the first error, and these are written. -/
theorem result_evalEntries (rules : List (String × Rule)) (written : Entries Json) :
    Eval.result (evalEntries missing rules context written) = do
      let pairs ← rules.mapM (evalPair missing context)
      return (missing.putAll written pairs).value := by
  have pairs : evalPair missing context = pairOf fun rule => do
      let value ← (eval missing rule context).result
      return (context.env.substOption missing value).value := by
    funext entry
    simp only [evalPair, pairOf, bind_assoc, pure_bind]
  rw [pairs]
  refine eq_mapM_pairOf (fun rules written => (evalEntries missing rules context written).result)
    (result_evalEntries_nil missing context) (fun key rule rest written => ?_) rules written
  rw [result_evalEntries_cons, bind_assoc]
  rfl

end Rule

/-- An object that is written pair by pair holds exactly what the pairs that count leave: the keys
are different and stand in the order in which they come up first among these pairs, and each has
the value of its last one. So it is for pairs in a row, for an object under substitution, whose
pairs are the substituted keys with the substituted values, and for an object of rules, whose pairs
are the keys with what their rules evaluate to, if none of them fails. -/
theorem Missing.object_of_effective_writes (missing : Missing) :
    (∀ pairs : List (String × Json),
      (Entries.keys (Entries.ofWrites pairs)).Nodup ∧
      Entries.keys (Entries.ofWrites pairs) = (Entries.keys pairs).eraseDups ∧
      ∀ key, Entries.get? (Entries.ofWrites pairs) key =
        (pairs.filter fun pair => pair.1 = key).getLast?.map Prod.snd) ∧
    (∀ pairs, (missing.putAll [] pairs).value = Entries.ofWrites (missing.effective pairs)) ∧
    (∀ (env : Env) (entries : List (String × Json)),
      (env.subst missing (.object entries)).value =
        some (.object (Entries.ofWrites (missing.effective (env.substPairs missing entries))))) ∧
    ∀ (context : Context) (rules : List (String × Rule)),
      (Rule.eval missing (.object rules) context).result = do
        let pairs ← rules.mapM (Rule.evalPair missing context)
        return some (.object (Entries.ofWrites (missing.effective pairs))) := by
  have written : ∀ pairs, (missing.putAll [] pairs).value =
      Entries.ofWrites (missing.effective pairs) := by
    intro pairs
    rw [missing.value_putAll, Entries.insertAll_nil]
  refine ⟨fun pairs => ?_, written, fun env entries => ?_, fun context rules => ?_⟩
  · exact ⟨Entries.nodup_keys_ofWrites pairs, Entries.keys_ofWrites pairs,
      Entries.get?_ofWrites pairs⟩
  · rw [env.value_subst_object, env.value_substEntries, written]
  · rw [Rule.result_eval_object, Rule.result_evalEntries]
    simp only [bind_assoc, pure_bind, written]

/-- Two entries come under one key, and the value of the second one is missing. -/
example :
    let env := Env.empty.bind ":k" (.string "x")
    let value := Json.object [(":k", .ofNat 1), ("y", .ofNat 2), ("x", .string ":free")]
    (env.subst .asNull value).value = some (.object [("x", .null), ("y", .ofNat 2)]) ∧
      (env.subst .omitted value).value = some (.object [("x", .ofNat 1), ("y", .ofNat 2)]) := by
  decide +kernel

end Reshape
