import Reshape.Env.Basic
import Reshape.Path.Follow

/-!
# Items of a path

A path that repeats a rule is listed item by item. Variables bound outside are put in first. If no
variable is left, the items are the parts of the value that the path leads to. If one is left, it
runs over its candidates, every position of an array or every key of an object at the place before
it, and the items found for each candidate are put in a row, each with the candidate bound. The
items of a path with two or more variables cannot be listed.

A value that is no container is its own only candidate and its own only part, and a missing value
counts as `null`.
-/

namespace Reshape

/-- The key of an entry's name, in the item made from the entry. -/
def nameKey : String := "$key"

/-- The key of an entry's value, in the item made from the entry. -/
def valueKey : String := "$value"

namespace Json

/-- The values that a variable takes at the place of a value. -/
def candidates : Option Json → List Json
  | some (.array items) => (List.range items.length).map ofNat
  | some (.object entries) => (Entries.keys entries).map string
  | value => [orNull value]

/-- The values that items are made from. -/
def parts : Option Json → List Json
  | some (.array items) => items
  | some (.object entries) =>
    entries.map fun entry => .object [(nameKey, .string entry.1), (valueKey, entry.2)]
  | value => [orNull value]

end Json

/-- An item, and the environment in which a rule is evaluated for it. -/
structure Item where
  value : Json
  env : Env
deriving DecidableEq

/-- The parts of a value as items of one environment. -/
def Env.itemsOf (env : Env) (value : Option Json) : List Item :=
  (Json.parts value).map fun part => ⟨part, env⟩

namespace Path

/-- The items found for each candidate of the variable `name`, which stands between `before` and
`after`. -/
def itemsAlong (root : Json) (env : Env) (before : List Token) (name : String)
    (after : List Token) : Logged (List Item) := do
  let place ← root.follow before
  let groups ← (Json.candidates place).mapM fun candidate => do
    let value ← root.follow (before ++ .key candidate.asKey :: after)
    return (env.bind name candidate).itemsOf value
  return groups.flatten

/-- The items of a path in a document. -/
def items (path : Path) (root : Json) (env : Env) : Eval (List Item) := do
  let tokens := env.fill path.tokens
  let items ← match Token.variableNames tokens with
    | [] => do
      let value ← root.follow tokens
      pure (env.itemsOf value)
    | [name] =>
      let before := tokens.takeWhile fun token => !token.isVariable
      let after := (tokens.dropWhile fun token => !token.isVariable).drop 1
      itemsAlong root env before name after
    | names => throw (.severalVariables path.text names.length)
  Logged.emit (.listed path items.length)
  return items

end Path

end Reshape
