import Reshape.Json.Basic

/-!
# Errors

What can go wrong when rules are read or evaluated, and when a configuration is read. Each error is
a cause with its data; `Error.message` is the sentence that reports it.
-/

namespace Reshape

/-- Faults of a configuration. -/
inductive ConfigFault where
  | outOfRange (name minimum maximum value : String)
  | unreadable
deriving DecidableEq

/-- The sentence that reports a fault of a configuration. -/
def ConfigFault.message : ConfigFault → String
  | .outOfRange name minimum maximum value =>
    "Invalid configuration parameter: " ++ name ++ " must be between " ++ minimum ++ " and " ++
      maximum ++ ", got " ++ value
  | .unreadable => "Configuration could not be parsed"

/-- Causes that end a transformation. -/
inductive Error where
  /-- A text that should be a path is none. -/
  | malformedPath (text : String)
  /-- A value that should be a rule is of another kind. -/
  | notARule (kind : Json.Kind)
  /-- The items of a path are asked for while several of its variables are unbound. -/
  | severalVariables (path : String) (count : Nat)
  /-- Rules are nested deeper than the limit. -/
  | tooDeep (limit : Nat)
  /-- The configuration is at fault. -/
  | badConfig (fault : ConfigFault)
deriving DecidableEq

/-- The sentence that reports an error. -/
def Error.message : Error → String
  | .malformedPath text => "invalid path '" ++ text ++ "'"
  | .notARule kind => "unsupported rule of type " ++ kind.name
  | .severalVariables path count =>
    "path '" ++ path ++ "' has " ++ toString count ++
      " unbound variable tokens; at most one is supported"
  | .tooDeep limit => "rule nesting exceeded depth limit of " ++ toString limit
  | .badConfig fault => "configuration error: " ++ fault.message

end Reshape
