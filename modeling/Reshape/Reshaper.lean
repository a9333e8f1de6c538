import Reshape.Config.Basic
import Reshape.Rule.Eval

/-!
# Reshapers

A reshaper is a valid configuration at work. It reads rules, applies them to documents, and does
both at once; single rules can be evaluated as well.
-/

namespace Reshape

/-- A valid configuration at work. -/
structure Reshaper where
  config : Config
  valid : config.Valid
deriving DecidableEq

namespace Reshaper

/-- The default configuration is valid. -/
instance : Inhabited Reshaper := ⟨⟨{}, by decide⟩⟩

/-- The reshaper of a configuration; it must be valid. -/
def ofConfig (config : Config) : Except Error Reshaper :=
  match checked : config.check with
  | .ok () => .ok ⟨config, Config.check_eq_ok_iff.mp checked⟩
  | .error fault => .error (.badConfig fault)

/-- Read the rules of an output document. -/
def readRules (reshaper : Reshaper) (rules : Json) : Eval RuleSet :=
  RuleSet.ofJson reshaper.config.maxDepth rules

/-- Apply rules to a document. -/
def apply (reshaper : Reshaper) (rules : RuleSet) (input : Json) : Eval Json := do
  let context := Context.ofDocument input .empty
  let entries ← Rule.evalEntries reshaper.config.missing rules.entries context []
  return .object entries

/-- Read rules and apply them to a document. -/
def transform (reshaper : Reshaper) (input rules : Json) : Eval Json := do
  let rules ← reshaper.readRules rules
  reshaper.apply rules input

/-- Read a single rule. -/
def readRule (reshaper : Reshaper) (rule : Json) : Eval Rule :=
  Rule.ofJson reshaper.config.maxDepth rule

/-- Evaluate a rule against a document, in which repeating rules also find their items. -/
def eval (reshaper : Reshaper) (rule : Rule) (document : Json) (env : Env) : Eval (Option Json) :=
  rule.eval reshaper.config.missing (.ofDocument document env)

/-- Evaluate a rule to a document; a missing value is `null`. -/
def evalOrNull (reshaper : Reshaper) (rule : Rule) (document : Json) (env : Env) : Eval Json := do
  let value ← reshaper.eval rule document env
  return Json.orNull value

/-- Read a single rule and evaluate it where nothing is bound. -/
def evalJson (reshaper : Reshaper) (rule document : Json) : Eval (Option Json) := do
  let rule ← reshaper.readRule rule
  reshaper.eval rule document .empty

end Reshaper

end Reshape
