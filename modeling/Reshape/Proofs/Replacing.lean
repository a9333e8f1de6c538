import Mathlib.Logic.Equiv.Basic
import Reshape.Proofs.RenamedRules

/-!
# Replacing a variable

A variable can be replaced by another one that does not occur in the rules, if neither of the two
occurs in the document (`Reshaper.transform_replace`). In such rules replacing the one is the same
as exchanging both (`Json.renameRules_swap`), and an exchange is a `Renaming`, which replacing is
not: it takes two names to one.
-/

namespace Reshape

/-! ## Transformations -/

/-- Applying renamed rules renames the keys of the output, which are keys of the rules, and changes
none of its values. -/
theorem Reshaper.apply_rename {σ : Renaming} {report : String → String} {reshaper : Reshaper}
    {rules : List (String × Rule)} {input : Json} (holds : σ.unmoved.Holds input)
    (reports : ∀ entry ∈ rules, entry.2.Reports report σ) :
    Related (Error.Renamed report)
      (fun output other => ∃ entries, output = .object entries ∧
        other = .object (entries.map (Prod.map σ.name id)) ∧
        ∀ entry ∈ entries, entry.1 ∈ Entries.keys rules)
      (Eval.result (reshaper.apply ⟨rules⟩ input))
      (Eval.result (reshaper.apply ⟨Rule.renameEntries σ.name rules⟩ input)) := by
  have within : σ.unmoved.Within (.ofDocument input .empty) :=
    ⟨holds, holds, Json.Family.holdsEnv_empty⟩
  have evaluated : Related (Error.Renamed report)
      (fun fields others => others = Json.renameEntries σ fields)
      (Eval.result (Rule.evalEntries reshaper.config.missing rules (.ofDocument input .empty) []))
      (Eval.result (Rule.evalEntries reshaper.config.missing (Rule.renameEntries σ.name rules)
        (.ofDocument input .empty) [])) :=
    Rule.evalEntries_rename reports within
  have known : ∀ fields : Entries Json, Eval.result (Rule.evalEntries reshaper.config.missing rules
      (.ofDocument input .empty) []) = .ok fields → ∀ field ∈ fields,
        field.1 ∈ Entries.keys rules ∧ σ.unmoved.Holds field.2 := by
    intro fields evaluated field member
    have nothing : (Entries.keys ([] : Entries Json)).Nodup := List.nodup_nil
    have origin := (Json.Family.mem_of_evalEntries within.env nothing evaluated).2 field member
    exact origin.resolve_left List.not_mem_nil
  rw [result_apply, result_apply]
  refine Related.bind (evaluated.and_known known) fun fields others same => ?_
  obtain ⟨rfl, known⟩ := same
  have others : Json.renameEntries σ fields = fields.map (Prod.map σ.name id) :=
    List.map_congr_left fun field member =>
      Prod.ext rfl (Json.rename_of_holds (known field member).2)
  exact .ok ⟨fields, rfl, congrArg Json.object others, fun field member => (known field member).1⟩

/-! ## Replacing one variable -/

/-- One name in place of another. -/
def replace (old new name : String) : String := if name = old then new else name

/-- Exchanging two variables. -/
def Renaming.swap {old new : String} (oldReference : isReference old = true)
    (newReference : isReference new = true) (oldDotless : '.' ∉ old.toList)
    (newDotless : '.' ∉ new.toList) : Renaming where
  name := Equiv.swap old new
  injective := (Equiv.swap old new).injective
  isReference_name text := by
    rw [Equiv.swap_apply_def]
    split_ifs with first second
    · rw [first, oldReference, newReference]
    · rw [second, oldReference, newReference]
    · rfl
  name_of_plain plain := by
    refine Equiv.swap_apply_of_ne_of_ne ?_ ?_
    · rintro rfl
      exact absurd oldReference (Bool.eq_false_iff.mp plain)
    · rintro rfl
      exact absurd newReference (Bool.eq_false_iff.mp plain)
  dotless dotless := by
    rw [Equiv.swap_apply_def]
    split_ifs
    · exact newDotless
    · exact oldDotless
    · exact dotless

/-- The name is not a string, a key or a token of a path at the root of the value. -/
def Json.LacksHere (name : String) : Json → Prop
  | .string text => text ≠ name ∧ ∀ path ∈ Path.ofText? text, Token.var name ∉ path.tokens
  | .object entries => name ∉ Entries.keys entries
  | _ => True

/-- The name occurs nowhere in the value: not as a string, a key or a token of a path. -/
def Json.Lacks (name : String) (value : Json) : Prop := value.Every (LacksHere name)

section Replace

variable {old new : String}

theorem swap_eq_replace {name : String} (other : name ≠ new) :
    Equiv.swap old new name = replace old new name := by
  rw [Equiv.swap_apply_def, if_neg other]
  rfl

theorem Path.swap_eq_replace {path : Path} (lacks : Token.var new ∉ path.tokens) :
    path.rename (Equiv.swap old new) = path.rename (replace old new) := by
  refine congrArg Path.mk (List.map_congr_left fun token member => ?_)
  cases token with
  | key text => rfl
  | var name =>
    have other : name ≠ new := fun same => lacks (same ▸ member)
    exact congrArg Token.var (Reshape.swap_eq_replace other)

theorem renameSource_swap {text : String} (lacks : (Json.string text).LacksHere new) :
    renameSource (Equiv.swap old new) text = renameSource (replace old new) text := by
  cases parsed : Path.ofText? text with
  | none =>
    rw [renameSource_of_none parsed, renameSource_of_none parsed, swap_eq_replace lacks.1]
  | some path =>
    rw [renameSource_of_path parsed, renameSource_of_path parsed,
      Path.swap_eq_replace (lacks.2 path parsed)]

/-- In rules that lack the new name, exchanging both names is replacing the old one. -/
theorem Json.renameRules_swap {value : Json} (lacks : value.Lacks new) :
    value.renameRules (Equiv.swap old new) = value.renameRules (replace old new) := by
  induction value with
  | null => rfl
  | bool value => rfl
  | number value => rfl
  | string text => exact congrArg Json.string (renameSource_swap lacks)
  | array items ih =>
    have parts := (every_array_iff.mp lacks).2
    unfold renameRules
    rw [mapTexts_array, mapTexts_array]
    exact congrArg Json.array
      (List.map_congr_left fun item member => ih item member (parts item member))
  | object entries ih =>
    obtain ⟨keys, parts⟩ := every_object_iff.mp lacks
    unfold renameRules
    rw [mapTexts_object, mapTexts_object]
    refine congrArg Json.object (List.map_congr_left fun entry member => ?_)
    have other : entry.1 ≠ new := fun same => keys (same ▸ List.mem_map_of_mem member)
    exact Prod.ext (swap_eq_replace other) (ih entry member (parts entry member))

/-- The path of a string in rules that lack the new name is reported as that string is replaced. -/
theorem renameSource_text {text : String} {path : Path} (lacks : (Json.string text).LacksHere new)
    (parsed : Path.ofText text = .ok path) :
    renameSource (replace old new) path.text = (path.rename (Equiv.swap old new)).text := by
  have parsed := Path.ofText?_of_ofText parsed
  rw [Path.text_of_ofText? parsed, ← renameSource_swap lacks, renameSource_of_path parsed]

variable {oldReference : isReference old = true} {newReference : isReference new = true}
  {oldDotless : '.' ∉ old.toList} {newDotless : '.' ∉ new.toList}

theorem Rule.reports_of_ofJson {limit depth : Nat} {value : Json} {rule : Rule}
    (lacks : value.Lacks new) (read : Eval.result (ofJsonAt limit depth value) = .ok rule) :
    rule.Reports (renameSource (replace old new))
      (.swap oldReference newReference oldDotless newDotless) := by
  refine every_of_ofJson (fun {_ value rule} lacks read path found => ?_)
    (Json.every_every lacks) read
  cases read with
  | text _ => cases found
  | object _ => cases found
  | path parsed =>
    cases found
    exact renameSource_text lacks parsed
  | @each entries source path body here parsed _ =>
    cases found
    have inside : source.Lacks new :=
      (Json.every_object_iff.mp lacks).2 _ (Entries.mem_of_get?_eq_some here)
    cases source with
    | string text => exact renameSource_text inside parsed
    | null => cases parsed
    | bool value => cases parsed
    | number value => cases parsed
    | array items => cases parsed
    | object entries => cases parsed

end Replace

/-- Replacing a variable by one that occurs neither in the rules nor, like the one replaced, in the
document changes an output in the keys at its top at most, and an error in the path that it reports
at most. -/
theorem Reshaper.transform_replace (reshaper : Reshaper) {old new : String}
    (oldReference : isReference old = true) (newReference : isReference new = true)
    (oldDotless : '.' ∉ old.toList) (newDotless : '.' ∉ new.toList)
    {rules : List (String × Json)} (lacks : (Json.object rules).Lacks new) {input : Json}
    (avoids : input.Avoids fun text => text = old ∨ text = new) :
    Related (Error.Renamed (renameSource (replace old new)))
      (fun output other => ∃ entries, output = .object entries ∧
        other = .object (entries.map (Prod.map (replace old new) id)))
      (Eval.result (reshaper.transform input (.object rules)))
      (Eval.result
        (reshaper.transform input ((Json.object rules).renameRules (replace old new)))) := by
  obtain ⟨keys, parts⟩ := Json.every_object_iff.mp lacks
  let σ : Renaming := .swap oldReference newReference oldDotless newDotless
  have holds : σ.unmoved.Holds input := by
    refine Json.Avoids.mono (fun text moves => ?_) avoids
    by_contra other
    rw [not_or] at other
    exact moves (Equiv.swap_apply_of_ne_of_ne other.1 other.2)
  have renamed : (Json.object rules).renameRules (replace old new) =
      .object (rules.map (Prod.map σ.name (Json.renameRules σ.name))) :=
    (Json.renameRules_swap lacks).symm.trans (Json.mapTexts_object _ _ rules)
  have read : Related (Error.Renamed (renameSource (replace old new)))
      (fun rules others => others = Rule.renameEntries σ.name rules)
      (Eval.result (Rule.ofJsonEntries reshaper.config.maxDepth 1 rules))
      (Eval.result (Rule.ofJsonEntries reshaper.config.maxDepth 1
        (rules.map (Prod.map σ.name (Json.renameRules σ.name))))) :=
    Rule.ofJsonEntries_rename fun entry _ => Rule.ofJsonAt_rename entry.2
  have known : ∀ entries, Eval.result (Rule.ofJsonEntries reshaper.config.maxDepth 1 rules) =
      .ok entries → Entries.keys entries = Entries.keys rules ∧
        ∀ entry ∈ entries, entry.2.Reports (renameSource (replace old new)) σ := by
    intro entries read
    have related := Rule.entryOf_of_ofJsonEntries read
    refine ⟨Rule.keys_of_entryOf related, fun entry member => ?_⟩
    obtain ⟨source, origin, _, read⟩ := Rule.mem_of_entryOf related member
    exact Rule.reports_of_ofJson (parts source origin) read
  rw [renamed, result_transform, result_transform]
  unfold readRules
  rw [Rule.result_ofJson_ruleSet, Rule.result_ofJson_ruleSet, bind_assoc, bind_assoc]
  refine Related.bind (read.and_known known) fun entries others same => ?_
  obtain ⟨rfl, sameKeys, reports⟩ := same
  refine (apply_rename holds reports).mono fun output other same => ?_
  obtain ⟨fields, rfl, rfl, origin⟩ := same
  refine ⟨fields, rfl, congrArg Json.object (List.map_congr_left fun field member => ?_)⟩
  have other : field.1 ≠ new := by
    intro same
    have member := origin field member
    rw [same, sameKeys] at member
    exact keys member
  exact Prod.ext (swap_eq_replace other) rfl

/-- A variable that is a key, a text, a token and bound twice; its new name is bound nowhere. -/
theorem Reshaper.transform_replace_row :
    let input : Json := .object [("rows", .object [("r", .array [.ofNat 1])])]
    let rules : List (String × Json) := [(":a", .string "$.rows"),
      ("out", .object [("$each", .string "$.rows.:a"), ("$key", .string ":a"),
        ("cells", .object [("$each", .string "$.rows.:a"), (":a", .string "$"),
          ("row", .object [(":a", .string "$.:a")])])])]
    Related (Error.Renamed (renameSource (replace ":a" ":b")))
      (fun output other => ∃ entries, output = .object entries ∧
        other = .object (entries.map (Prod.map (replace ":a" ":b") id)))
      (Eval.result ((default : Reshaper).transform input (.object rules)))
      (Eval.result ((default : Reshaper).transform input
        ((Json.object rules).renameRules (replace ":a" ":b")))) := by
  refine transform_replace default (by decide) (by decide) (by decide) (by decide) ?_ ?_
  · simp only [Json.Lacks, Json.Every, Json.EveryEntry, Json.LacksHere]
    decide +kernel
  · simp only [Json.Avoids, Json.AvoidsEntries, Json.AvoidsItems, Json.ofNat, and_true]
    decide

end Reshape
