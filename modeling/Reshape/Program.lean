import Reshape.Reshaper

/-!
# Programs

A program is a rule set together with the reshaper that applies it, made once from a configuration
and a rule document and used for any number of inputs. A faulty configuration is reported before any
fault of the rules.
-/

namespace Reshape

/-- Rules together with the reshaper that applies them. -/
structure Program where
  reshaper : Reshaper
  rules : RuleSet
deriving DecidableEq

/-- Run a program on a document. -/
def Program.run (program : Program) (input : Json) : Eval Json :=
  program.reshaper.apply program.rules input

namespace Config

/-- The program of a rule document under a configuration. -/
def program (config : Config) (rules : Json) : Eval Program := do
  let reshaper ← Eval.ofExcept (Reshaper.ofConfig config)
  let rules ← reshaper.readRules rules
  return { reshaper, rules }

/-- Make a program and run it on a document. -/
def transform (config : Config) (input rules : Json) : Eval Json := do
  let program ← config.program rules
  program.run input

end Config

/-- Transform a document under the default configuration. -/
def transform (input rules : Json) : Eval Json := Config.transform {} input rules

end Reshape
