import Reshape.Env.Basic
import Reshape.Missing

/-!
# Substitution

Replacing variable references by the values bound to them, throughout a value: in strings, and in
keys of objects, where the value becomes the key it stands for. A reference to an unbound variable
is missing as a value; as a key it leaves its entry without a place, and the entry is dropped before
its value is looked at. Values that were put in are not searched again.
-/

namespace Reshape

namespace Env

/-- The value of a variable. -/
def read (env : Env) (name : String) : Logged (Option Json) :=
  match env.get? name with
  | some value => pure (some value)
  | none => do
    Logged.emit (.unbound name)
    return none

/-- Substitute in a string. -/
def substText (env : Env) (text : String) : Logged (Option Json) :=
  if isReference text then env.read text else pure (some (.string text))

/-- Substitute in a key; none if the entry has no place. -/
def substKey (env : Env) (key : String) : Logged (Option String) :=
  if isReference key then
    match env.get? key with
    | some value => pure (some value.asKey)
    | none => do
      Logged.emit (.entryDropped key)
      return none
  else pure (some key)

mutual

/-- Substitute throughout a value. -/
def subst (env : Env) (missing : Missing) : Json → Logged (Option Json)
  | .string text => env.substText text
  | .array items => do
    let items ← substItems env missing items
    return some (.array items)
  | .object entries => do
    let entries ← substEntries env missing [] entries
    return some (.object entries)
  | value => pure (some value)

/-- Substitute in the items of an array, which all keep their places. -/
def substItems (env : Env) (missing : Missing) : List Json → Logged (List Json)
  | [] => pure []
  | value :: rest => do
    let item ← subst env missing value
    let items ← substItems env missing rest
    return Json.orNull item :: items

/-- Substitute in the entries of an object, writing them one after another. -/
def substEntries (env : Env) (missing : Missing) (written : Entries Json) :
    List (String × Json) → Logged (Entries Json)
  | [] => pure written
  | (key, value) :: rest => do
    match ← env.substKey key with
    | none => substEntries env missing written rest
    | some key => do
      let value ← subst env missing value
      let written ← missing.put written key value
      substEntries env missing written rest

end

/-- Substitute in a value, if there is one. -/
def substOption (env : Env) (missing : Missing) : Option Json → Logged (Option Json)
  | some value => env.subst missing value
  | none => pure none

end Env

end Reshape
