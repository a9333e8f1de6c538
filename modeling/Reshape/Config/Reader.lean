import Reshape.Config.Basic
import Reshape.Json.Source

/-!
# Reading configurations

A configuration is written as an object of its settings, in any order, or as an array of them, in
the order of the structure. Settings that are absent keep their defaults. An object may hold other
entries, whose values are not looked at, but no setting twice.

What happens to missing values is a name, or an object with the name as the only key and `null` as
the value. The depth is an integer numeral that is not negative and fits 64 bits.
-/

namespace Reshape

namespace Config

/-- The treatment of missing values that a tree means. -/
def missingOfSource? : Source → Option Missing
  | .string (some name) => Missing.ofName? name
  | .object [(some name, .null)] => Missing.ofName? name
  | _ => none

/-- The depth that a tree means. -/
def depthOfSource? : Source → Option Nat
  | .numeral n =>
    match n.integer? with
    | some value => if 0 ≤ value then some value.toNat else none
    | none => none
  | _ => none

/-- The settings that were found. -/
structure Settings where
  missing : Option Missing := none
  maxDepth : Option Nat := none
deriving DecidableEq

/-- The configuration of settings, with the defaults of those that are absent. -/
def ofSettings (settings : Settings) : Config :=
  { missing := settings.missing.getD .asNull
    maxDepth := settings.maxDepth.getD Rule.defaultLimit }

/-- Find the settings among the entries of an object. -/
def findSettings? (found : Settings) : List (Option String × Source) → Option Settings
  | [] => some found
  | (none, _) :: _ => none
  | (some key, value) :: rest =>
    if key = "missing" then
      if found.missing.isSome then none
      else (missingOfSource? value).bind fun missing =>
        findSettings? { found with missing := some missing } rest
    else if key = "max_depth" then
      if found.maxDepth.isSome then none
      else (depthOfSource? value).bind fun depth =>
        findSettings? { found with maxDepth := some depth } rest
    else findSettings? found rest

/-- The settings that a tree holds. -/
def settingsOfSource? : Source → Option Settings
  | .object entries => findSettings? {} entries
  | .array [] => some {}
  | .array [missing] => do
    let missing ← missingOfSource? missing
    return { missing := some missing }
  | .array [missing, depth] => do
    let missing ← missingOfSource? missing
    let depth ← depthOfSource? depth
    return { missing := some missing, maxDepth := some depth }
  | _ => none

/-- The configuration of a text, if it can be read and is valid. -/
def ofText (text : String) : Except ConfigFault Config :=
  match (Source.ofText? text).bind settingsOfSource? with
  | none => .error .unreadable
  | some settings => do
    let config := ofSettings settings
    config.check
    return config

end Config

end Reshape
