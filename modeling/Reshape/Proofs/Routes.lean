import Reshape.Proofs.Reading
import Reshape.Proofs.Results
import Reshape.Session

/-!
# Ways to a transformation

A document is transformed by a reshaper, by a program that was made from the rules before, by a call
of a session, or by the rules taken as a single rule. All of them go through the same stages, in the
same order: the configuration is checked, then the rules are read, then they are applied. A single
rule is read and evaluated by functions of its own, which come to the same as those for rule sets
wherever the entry `$each` has no meaning to lose.

* `Config.transform_eq` and `Reshaper.evalJson_eq` compare whole computations, logs included.
* `Config.routes_agree`: one result, whatever way is taken.
-/

namespace Reshape

/-- A transformation stage by stage. -/
def Config.stages (config : Config) (input rules : Json) : Except Error Json := do
  let reshaper ← Reshaper.ofConfig config
  let set ← (reshaper.readRules rules).result
  (reshaper.apply set input).result

namespace Reshaper

/-- A configuration that fails the check has no reshaper. -/
theorem ofConfig_of_check {config : Config} {fault : ConfigFault}
    (faulty : config.check = .error fault) : ofConfig config = .error (.badConfig fault) := by
  unfold ofConfig
  split
  · next checked =>
    rw [faulty] at checked
    cases checked
  · next other checked =>
    rw [faulty] at checked
    cases checked
    rfl

variable (reshaper : Reshaper)

/-- An object without `$each` is read as a rule like a rule set. -/
theorem readRule_object {entries : List (String × Json)}
    (absent : Entries.get? entries eachEntry = none) :
    reshaper.readRule (.object entries) = do
      let set ← reshaper.readRules (.object entries)
      return .object set.entries := by
  unfold readRule readRules Rule.ofJson RuleSet.ofJson
  rw [Rule.ofJsonAt, if_neg (Nat.not_lt_zero _)]
  dsimp only
  rw [absent]
  simp only [bind_assoc, pure_bind]

/-- An object of rules is evaluated like a rule set. -/
theorem eval_object (set : RuleSet) (input : Json) :
    reshaper.eval (.object set.entries) input .empty = some <$> reshaper.apply set input := by
  unfold eval apply
  rw [Rule.eval]
  simp only [map_bind, map_pure]

/-- Rules without `$each` come to the same as a single rule, where the output is always there. -/
theorem evalJson_eq {entries : List (String × Json)}
    (absent : Entries.get? entries eachEntry = none) (input : Json) :
    reshaper.evalJson (.object entries) input =
      some <$> reshaper.transform input (.object entries) := by
  unfold evalJson transform
  rw [readRule_object reshaper absent]
  simp only [bind_assoc, pure_bind, eval_object, map_bind]

end Reshaper

namespace Config

variable (config : Config) (input rules : Json)

/-- Making a program and running it is making a reshaper and transforming by it. -/
theorem transform_eq :
    config.transform input rules =
      Eval.ofExcept (Reshaper.ofConfig config) >>= fun reshaper =>
        reshaper.transform input rules := by
  unfold transform program Program.run Reshaper.transform
  simp only [bind_assoc, pure_bind]

theorem result_reshaper_transform :
    (Reshaper.ofConfig config >>= fun reshaper => (reshaper.transform input rules).result) =
      config.stages input rules :=
  bind_congr fun reshaper => reshaper.result_transform input rules

theorem result_transform_eq_stages :
    (config.transform input rules).result = config.stages input rules := by
  rw [transform_eq, Eval.result_bind, Eval.result_ofExcept, result_reshaper_transform]

theorem result_program :
    (config.program rules).result = Reshaper.ofConfig config >>= fun reshaper =>
      (reshaper.readRules rules).result >>= fun set => .ok ⟨reshaper, set⟩ := by
  unfold program
  simp only [Eval.result_bind, Eval.result_ofExcept, Eval.result_pure]

/-- The stages of a transformation are cut between reading the rules and applying them. -/
theorem result_program_run :
    ((config.program rules).result >>= fun program => (program.run input).result) =
      config.stages input rules := by
  rw [result_program]
  simp only [bind_assoc]
  rfl

/-- Every way to a transformation comes to the same result: by a reshaper, by a configuration, by a
program that was made before, by calls of a session, and under the default configuration without
any. A fault of the configuration is reported before faults of the rules, and these before errors of
evaluation. Rules without `$each` may be evaluated as a single rule, which then has a value whenever
the transformation has an output, and otherwise the same error. -/
theorem routes_agree :
    (Reshaper.ofConfig config >>= fun reshaper => (reshaper.transform input rules).result) =
      config.stages input rules ∧
    (config.transform input rules).result = config.stages input rules ∧
    ((config.program rules).result >>= fun program => (program.run input).result) =
      config.stages input rules ∧
    (Session.answerAll {} [.setConfig config, .transform input rules]).1 =
      [.ok .done, (config.stages input rules).map .output] ∧
    (Reshape.transform input rules).result = stages {} input rules ∧
    (∀ fault, config.check = .error fault →
      config.stages input rules = .error (.badConfig fault)) ∧
    ∀ reshaper, Reshaper.ofConfig config = .ok reshaper →
      (∀ error, (reshaper.readRules rules).result = .error error →
        config.stages input rules = .error error) ∧
      (∀ set, (reshaper.readRules rules).result = .ok set →
        config.stages input rules = (reshaper.apply set input).result) ∧
      ∀ entries, rules = .object entries → eachEntry ∉ Entries.keys entries →
        (reshaper.evalJson rules input).result = (config.stages input rules).map some := by
  refine ⟨config.result_reshaper_transform input rules,
    config.result_transform_eq_stages input rules, config.result_program_run input rules,
    ?_, result_transform_eq_stages {} input rules, ?_, ?_⟩
  · rw [← config.result_transform_eq_stages input rules]
    rfl
  · intro fault faulty
    unfold stages
    rw [Reshaper.ofConfig_of_check faulty]
    rfl
  · intro reshaper made
    unfold stages
    rw [made]
    refine ⟨fun error unread => ?_, fun set read => ?_, ?_⟩
    · change (reshaper.readRules rules).result >>= _ = _
      rw [unread]
      rfl
    · change (reshaper.readRules rules).result >>= _ = _
      rw [read]
      rfl
    · rintro entries rfl plain
      rw [reshaper.evalJson_eq (Entries.get?_eq_none_iff.mpr plain), Eval.result_map,
        reshaper.result_transform]
      rfl

/-- Rules that leave a missing value out, and a configuration whose fault comes before the one of
the rules. -/
theorem routes_agree_omitted :
    let config : Config := { missing := .omitted, maxDepth := 2 }
    let reshaper : Reshaper := ⟨config, by decide⟩
    let input : Json := .object [("a", .array [.ofNat 1])]
    let rules : Json := .object [("x", .string "$.b"), ("y", .object [("z", .string "$.a.0")])]
    let output : Json := .object [("y", .object [("z", .ofNat 1)])]
    let faulty : Config := { maxDepth := 0 }
    Reshaper.ofConfig config = .ok reshaper ∧
      (config.transform input rules).result = .ok output ∧
      (Session.answerAll {} [.setConfig config, .transform input rules]).1 =
        [.ok .done, .ok (.output output)] ∧
      (reshaper.evalJson rules input).result = .ok (some output) ∧
      (faulty.transform input .null).result =
        .error (.badConfig (.outOfRange "max_depth" "1" "4096" "0")) := by
  intro config reshaper input rules output faulty
  have made : Reshaper.ofConfig config = .ok reshaper := rfl
  have stages : config.stages input rules = .ok output := by decide +kernel
  obtain ⟨_, transformed, _, answered, _, _, single⟩ := routes_agree config input rules
  obtain ⟨_, _, evaluated⟩ := single reshaper made
  obtain ⟨_, failed, _, _, _, reported, _⟩ := routes_agree faulty input .null
  refine ⟨made, transformed.trans stages, ?_, ?_, failed.trans (reported _ (by decide +kernel))⟩
  · rw [answered, stages]
    rfl
  · rw [evaluated _ rfl (by decide), stages]
    rfl

end Config

end Reshape
