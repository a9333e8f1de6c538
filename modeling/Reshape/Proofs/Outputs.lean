import Reshape.Proofs.Preservation
import Reshape.Proofs.Reading

/-!
# Output documents

The value of every entry of an output is substituted once more where nothing is bound, so that no
reference is left in it, wherever it came from: texts and keys of the rules, strings and keys of the
input, values of variables, keys of outcomes. The entries themselves stand under the keys of the
rules, which are written as they are.

* `Rule.keys_of_evalEntries`: the keys that rules write, in order.
* `Reshaper.output_of_transform`: the keys of an output and what its values are free of.
-/

namespace Reshape

/-- A new key is written, unless its value is missing and omitted. -/
theorem Missing.keys_put (missing : Missing) {written : Entries Json} {key : String}
    (absent : key ∉ Entries.keys written) (value : Option Json) :
    Entries.keys (missing.put written key value).value = Entries.keys written ++ [key] ∨
      missing = .omitted ∧ (missing.put written key value).value = written := by
  have inserted : ∀ value, Entries.keys (Entries.insert written key value) =
      Entries.keys written ++ [key] := by
    intro value
    rw [Entries.keys_insert, if_neg absent]
  cases value with
  | some value => exact Or.inl (inserted value)
  | none =>
    cases missing with
    | asNull => exact Or.inl (inserted .null)
    | omitted => exact Or.inr ⟨rfl, rfl⟩

/-- Rules with different keys write these keys in order, and all of them if missing values are
written as `null`. -/
theorem Rule.keys_of_evalEntries {missing : Missing} {context : Context}
    {rules : List (String × Rule)} {written fields : Entries Json}
    (distinct : (Entries.keys written ++ Entries.keys rules).Nodup)
    (evaluated : Eval.result (evalEntries missing rules context written) = .ok fields) :
    ∃ kept, Entries.keys fields = Entries.keys written ++ kept ∧
      kept.Sublist (Entries.keys rules) ∧ (missing = .asNull → kept = Entries.keys rules) := by
  induction rules generalizing written with
  | nil =>
    rw [result_evalEntries_nil] at evaluated
    cases evaluated
    exact ⟨[], (List.append_nil _).symm, .slnil, fun _ => rfl⟩
  | cons entry rest ih =>
    obtain ⟨key, rule⟩ := entry
    have absent : key ∉ Entries.keys written := fun member =>
      (List.nodup_append.mp distinct).2.2 key member key List.mem_cons_self rfl
    rw [result_evalEntries_cons] at evaluated
    obtain ⟨value, _, evaluated⟩ := of_bind_eq_ok evaluated
    rcases missing.keys_put absent (context.env.substOption missing value).value with
      keys | ⟨omitted, same⟩
    · have moved : Entries.keys written ++ Entries.keys ((key, rule) :: rest) =
          Entries.keys written ++ [key] ++ Entries.keys rest := by
        rw [List.append_assoc]
        rfl
      obtain ⟨kept, fields, sublist, all⟩ := ih (keys ▸ moved ▸ distinct) evaluated
      refine ⟨key :: kept, ?_, sublist.cons_cons key, fun null => congrArg (key :: ·) (all null)⟩
      rw [fields, keys, List.append_assoc]
      rfl
    · rw [same] at evaluated
      have fewer : (Entries.keys written ++ Entries.keys rest).Nodup :=
        distinct.sublist (List.Sublist.append_left (List.sublist_cons_self _ _) _)
      obtain ⟨kept, fields, sublist, _⟩ := ih fewer evaluated
      refine ⟨kept, fields, sublist.cons key, fun null => ?_⟩
      rw [omitted] at null
      cases null

namespace Reshaper

variable {reshaper : Reshaper} {input output : Json} {rules : List (String × Json)}

/-- The fields of an output are written by the rules that were read. -/
theorem fields_of_transform
    (transformed : Eval.result (reshaper.transform input (.object rules)) = .ok output) :
    ∃ entries fields,
      Eval.result (Rule.ofJsonEntries reshaper.config.maxDepth 1 rules) = .ok entries ∧
      Eval.result (Rule.evalEntries reshaper.config.missing entries
        (.ofDocument input .empty) []) = .ok fields ∧
      output = .object fields := by
  rw [result_transform] at transformed
  obtain ⟨read, compiled, applied⟩ := of_bind_eq_ok transformed
  unfold readRules at compiled
  rw [Rule.result_ofJson_ruleSet] at compiled
  obtain ⟨entries, readEntries, same⟩ := of_bind_eq_ok compiled
  obtain rfl := Except.ok.inj same
  rw [result_apply] at applied
  obtain ⟨fields, evaluated, same⟩ := of_bind_eq_ok applied
  exact ⟨entries, fields, readEntries, evaluated, (Except.ok.inj same).symm⟩

/-- An output is an object under the keys of the rules: all of them in order, or some of them in
order if missing values are omitted. No string and no key anywhere in its values refers to a
variable, whatever the input and the rules hold. -/
theorem output_of_transform (distinct : (Entries.keys rules).Nodup)
    (transformed : Eval.result (reshaper.transform input (.object rules)) = .ok output) :
    ∃ fields, output = .object fields ∧
      (match reshaper.config.missing with
      | .asNull => Entries.keys fields = Entries.keys rules
      | .omitted => (Entries.keys fields).Sublist (Entries.keys rules)) ∧
      ∀ field ∈ fields, field.2.ReferenceFree := by
  obtain ⟨entries, fields, read, evaluated, rfl⟩ := fields_of_transform transformed
  have keys : Entries.keys entries = Entries.keys rules :=
    Rule.keys_of_entryOf (Rule.entryOf_of_ofJsonEntries read)
  have apart : (Entries.keys ([] : Entries Json) ++ Entries.keys entries).Nodup := by
    rw [keys]
    exact distinct
  obtain ⟨kept, written, sublist, all⟩ := Rule.keys_of_evalEntries apart evaluated
  let free : Json.Family := Json.avoiding (fun text => isReference text = true) fun _ same => same
  have bound : free.HoldsEnv Env.empty := Json.Family.holdsEnv_empty
  have nothing : (Entries.keys ([] : Entries Json)).Nodup := List.nodup_nil
  obtain ⟨_, values⟩ := Json.Family.mem_of_evalEntries bound nothing evaluated
  refine ⟨fields, rfl, ?_, fun field member => ?_⟩
  · rw [written, ← keys]
    cases missing : reshaper.config.missing with
    | asNull => exact all missing
    | omitted => exact sublist
  · rcases values field member with old | ⟨_, holds⟩
    · exact absurd old List.not_mem_nil
    · exact holds

/-- References in the input and in the rules, some of them bound, as strings and as keys. -/
theorem output_of_transform_row :
    let input : Json := .object [(":row", .array [.string ":row", .string "a"]),
      ("r", .object [(":x", .object [("n", .ofNat 1)])])]
    let rules : List (String × Json) := [(":b", .string ":b"), ("all", .string "$"),
      ("rows", .object [("$each", .string "$.r.:name"), (":name", .string "yes"),
        ("name", .string ":name"), ("cell", .object [("x", .string "$.$value")])])]
    let output : Json := .object [(":b", .null), ("all", .object [("r", .object [])]),
      ("rows", .array [.object [("name", .null), ("cell", .object [("x", .ofNat 1)])]])]
    Eval.result ((default : Reshaper).transform input (.object rules)) = .ok output ∧
      ∃ fields, output = .object fields ∧ Entries.keys fields = Entries.keys rules ∧
        ∀ field ∈ fields, field.2.ReferenceFree := by
  intro input rules output
  have transformed : Eval.result ((default : Reshaper).transform input (.object rules)) =
      .ok output := by decide +kernel
  exact ⟨transformed, output_of_transform (by decide) transformed⟩

end Reshaper

end Reshape
