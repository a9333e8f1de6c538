import Reshape.Logged

/-!
# Missing values in objects

A path may lead to a value, which can be `null`, or lead nowhere. Values that may be missing are
optional values, so that the two stay apart until the value is written. An array writes `null` for a
missing value. What an object does is a setting: it writes `null` too, or leaves the entry out, in
which case the key keeps what was written before.
-/

namespace Reshape

/-- What an object does with a missing value. -/
inductive Missing where
  | asNull
  | omitted
deriving DecidableEq

namespace Missing

/-- The name of the setting. -/
def name : Missing → String
  | .asNull => "null"
  | .omitted => "omit"

/-- The setting of a name. -/
def ofName? : String → Option Missing
  | "null" => some .asNull
  | "omit" => some .omitted
  | _ => none

/-- The value that an object writes, if it writes one. -/
def written? (missing : Missing) : Option Json → Option Json
  | some value => some value
  | none =>
    match missing with
    | .asNull => some .null
    | .omitted => none

/-- Write a value that may be missing under `key`. -/
def put (missing : Missing) (entries : Entries Json) (key : String) (value : Option Json) :
    Logged (Entries Json) :=
  match missing.written? value with
  | some value => pure (Entries.insert entries key value)
  | none => do
    Logged.emit (.missingOmitted key)
    return entries

@[simp] theorem written?_some (missing : Missing) (value : Json) :
    missing.written? (some value) = some value := rfl

@[simp] theorem ofName?_name (missing : Missing) : ofName? missing.name = some missing := by
  cases missing <;> rfl

end Missing

end Reshape
