import Reshape.Json.Text
import Reshape.Path.Basic

/-!
# Events

What the reading and the evaluation of rules report while they run. An event carries its data, has a
level, and is reported by the sentence `Event.message`.
-/

namespace Reshape

/-- How much attention an event asks for. -/
inductive Level where
  | warn
  | debug
  | trace
deriving DecidableEq

/-- The name of a level. -/
def Level.name : Level → String
  | .warn => "warn"
  | .debug => "debug"
  | .trace => "trace"

/-- Levels are ranked from the most severe one. -/
def Level.rank : Level → Nat
  | .warn => 0
  | .debug => 1
  | .trace => 2

/-- Things that happen while rules are read and evaluated. -/
inductive Event where
  /-- A repeating rule has a reserved entry without a meaning. -/
  | reservedIgnored (key : String)
  /-- A token leads nowhere. -/
  | leadsNowhere (token : Token)
  /-- A path rule has no value. -/
  | pathMissing (path : Path)
  /-- An unbound variable is asked for its value. -/
  | unbound (name : String)
  /-- An entry is dropped whose key refers to an unbound variable. -/
  | entryDropped (key : String)
  /-- A missing value is left out of an object. -/
  | missingOmitted (key : String)
  /-- The items of a path were listed. -/
  | listed (path : Path) (count : Nat)
  /-- All items of a repeating rule are evaluated and will be collected. -/
  | collecting (count : Nat) (path : Path) (keyed : Bool)
  /-- An item that needs a key has none. -/
  | keyMissing
  /-- The place of an item is a text that is no finite number. -/
  | textNoPlace (text : String) (position : Nat)
  /-- The place of an item is neither a number nor a text. -/
  | valueNoPlace (value : Json) (position : Nat)
deriving DecidableEq

namespace Event

/-- The level of an event. -/
def level : Event → Level
  | .keyMissing | .textNoPlace .. | .valueNoPlace .. => .warn
  | .reservedIgnored _ | .entryDropped _ | .listed .. | .collecting .. => .debug
  | .leadsNowhere _ | .pathMissing _ | .unbound _ | .missingOmitted _ => .trace

/-- The sentence that reports an event. -/
def message : Event → String
  | .reservedIgnored key => "ignoring reserved entry '" ++ key ++ "' in repeating rule"
  | .leadsNowhere token => "path segment '" ++ token.text ++ "' not found"
  | .pathMissing path => "'" ++ path.text ++ "' resolved to nothing"
  | .unbound name => "unbound variable '" ++ name ++ "'"
  | .entryDropped key => "dropping entry keyed by unbound variable '" ++ key ++ "'"
  | .missingOmitted key => "omitting missing value for key '" ++ key ++ "'"
  | .listed path count => "'" ++ path.text ++ "' enumerated " ++ toString count ++ " item(s)"
  | .collecting count path keyed =>
    "aggregating " ++ toString count ++ " item(s) from '" ++ path.text ++ "' into " ++
      if keyed then "object" else "array"
  | .keyMissing => "skipping repeated item whose $key did not resolve"
  | .textNoPlace text position =>
    "$index '" ++ text ++ "' is not numeric; using position " ++ toString position
  | .valueNoPlace value position =>
    "$index " ++ value.text ++ " is not numeric; using position " ++ toString position

/-- Whether an event is at the level or more severe. -/
def reaches (threshold : Level) (event : Event) : Bool := event.level.rank ≤ threshold.rank

end Event

end Reshape
