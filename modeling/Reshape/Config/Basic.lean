import Reshape.Config.Range
import Reshape.Json.Text
import Reshape.Missing
import Reshape.Rule.OfJson

/-!
# Configurations

A configuration says what happens to missing values in objects and how deep rules may be nested. It
is valid if at least one level and at most 4096 levels are allowed.
-/

namespace Reshape

/-- The settings of a transformation. -/
structure Config where
  missing : Missing := .asNull
  maxDepth : Nat := Rule.defaultLimit
deriving DecidableEq

namespace Config

/-- The least depth that can be allowed. -/
def leastDepth : Nat := 1

/-- The greatest depth that can be allowed. -/
def greatestDepth : Nat := 4096

/-- The depth allowed is in range. -/
def Valid (config : Config) : Prop :=
  leastDepth ≤ config.maxDepth ∧ config.maxDepth ≤ greatestDepth

instance (config : Config) : Decidable config.Valid := inferInstanceAs (Decidable (_ ∧ _))

/-- Report a depth that is out of range. -/
def check (config : Config) : Except ConfigFault Unit :=
  inRange toString config.maxDepth leastDepth greatestDepth "max_depth"

theorem check_eq_ok_iff {config : Config} : config.check = .ok () ↔ config.Valid := by
  rw [check, inRange_eq_ok_iff, Valid, Nat.not_lt, Nat.not_lt]

/-- The document of a configuration. -/
def toJson (config : Config) : Json :=
  .object [("missing", .string config.missing.name), ("max_depth", .ofNat config.maxDepth)]

/-- The text of a configuration. -/
def text (config : Config) : String := config.toJson.text

end Config

end Reshape
