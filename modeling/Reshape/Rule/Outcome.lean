import Reshape.Logged
import Reshape.Number.Numeral
import Reshape.Rule.Basic

/-!
# Outcomes of repeating rules

A repeating rule has an outcome for each item, and the outcomes are collected into one value. With a
key they become the entries of an object, a later outcome replacing an earlier one of the same key;
an outcome whose key is missing has no entry. Without a key they become the items of an array,
sorted by their places. The place of an outcome is the number that its index evaluates to, or else
its position among the outcomes; outcomes of one place stay in order.
-/

namespace Reshape

/-- What a repeating rule evaluates to for one item. Key and index are missing also where the rule
has none. -/
structure Outcome where
  key : Option Json
  index : Option Json
  fields : Entries Json
deriving DecidableEq

namespace Outcome

/-- The object that is collected: the fields whose keys are not reserved. -/
def output (outcome : Outcome) : Json :=
  .object (outcome.fields.filter fun field => !isReserved field.1)

/-! ## Objects -/

/-- Write outcomes under their keys, behind the entries written before. -/
def putAll (written : Entries Json) : List Outcome → Logged (Entries Json)
  | [] => pure written
  | outcome :: rest =>
    match outcome.key with
    | some key => putAll (Entries.insert written key.asKey outcome.output) rest
    | none => do
      Logged.emit .keyMissing
      putAll written rest

/-- The object of outcomes. -/
def toObject (outcomes : List Outcome) : Logged Json := do
  let entries ← putAll [] outcomes
  return .object entries

/-! ## Arrays -/

/-- The place that an index gives to the outcome at a position. -/
def place (index : Option Json) (position : Nat) : Logged Double :=
  let fallback := Double.ofNat false position
  match index with
  | some (.number value) => pure value.toDouble
  | some (.string text) =>
    match Double.ofText? text with
    | some value => pure value
    | none => do
      Logged.emit (.textNoPlace text position)
      return fallback
  | some .null | none => pure fallback
  | some value => do
    Logged.emit (.valueNoPlace value position)
    return fallback

/-- Outcomes with their places; the first one stands at `position`. -/
def placeAll (position : Nat) : List Outcome → Logged (List (Double × Outcome))
  | [] => pure []
  | outcome :: rest => do
    let place ← place outcome.index position
    let others ← placeAll (position + 1) rest
    return (place, outcome) :: others

/-- The array of outcomes in the order of their places. -/
def toArray (outcomes : List Outcome) : Logged Json := do
  let placed ← placeAll 0 outcomes
  let sorted := placed.mergeSort fun a b => a.1.orderKey ≤ b.1.orderKey
  return .array (sorted.map fun entry => entry.2.output)

end Outcome

end Reshape
