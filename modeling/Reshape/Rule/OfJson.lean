import Reshape.Logged
import Reshape.Rule.Basic

/-!
# Rules from documents

Rules are written as JSON values. A string that begins with `$` is a path and any other string a
text; an object with the entry `$each` is a repeating rule and any other object an object of rules;
nothing else is a rule. Rules may be nested down to a limit, which is checked before a rule is
looked at.

The first fault in the order of the document is the one reported, except that the path of a
repeating rule is read before its other entries. Reserved entries without a meaning are not read at
all.
-/

namespace Reshape

namespace Rule

/-- How deep rules may be nested if nothing else is said. -/
def defaultLimit : Nat := 128

/-- The path of a repeating rule. -/
def eachPath : Json → Except Error Path
  | .string source => Path.ofText source
  | value => .error (.malformedPath value.text)

/-- The parts of a repeating rule apart from its path. -/
structure Body where
  key : Option Rule
  index : Option Rule
  fields : List (String × Rule)

mutual

/-- Read the rule at a depth. -/
def ofJsonAt (limit depth : Nat) (value : Json) : Eval Rule :=
  if limit < depth then throw (.tooDeep limit)
  else match value with
    | .string source =>
      if beginsWithDollar source then do
        let path ← Eval.ofExcept (Path.ofText source)
        return .path path
      else pure (.text source)
    | .object entries =>
      match Entries.get? entries eachEntry with
      | some source => do
        let path ← Eval.ofExcept (eachPath source)
        let body ← ofJsonBody limit (depth + 1) entries
        return .each path body.key body.index body.fields
      | none => do
        let entries ← ofJsonEntries limit (depth + 1) entries
        return .object entries
    | value => throw (.notARule value.kind)

/-- Read the entries of an object of rules. -/
def ofJsonEntries (limit depth : Nat) : List (String × Json) → Eval (List (String × Rule))
  | [] => pure []
  | (key, value) :: rest => do
    let rule ← ofJsonAt limit depth value
    let rules ← ofJsonEntries limit depth rest
    return (key, rule) :: rules

/-- Read the entries of a repeating rule apart from its path. -/
def ofJsonBody (limit depth : Nat) : List (String × Json) → Eval Body
  | [] => pure ⟨none, none, []⟩
  | (key, value) :: rest =>
    if key = eachEntry then ofJsonBody limit depth rest
    else if key = keyEntry then do
      let rule ← ofJsonAt limit depth value
      let body ← ofJsonBody limit depth rest
      return { body with key := body.key <|> some rule }
    else if key = indexEntry then do
      let rule ← ofJsonAt limit depth value
      let body ← ofJsonBody limit depth rest
      return { body with index := body.index <|> some rule }
    else if isReserved key then do
      Logged.emit (.reservedIgnored key)
      ofJsonBody limit depth rest
    else do
      let rule ← ofJsonAt limit depth value
      let body ← ofJsonBody limit depth rest
      return { body with fields := (key, rule) :: body.fields }

end

/-- The rule that a document writes. -/
def ofJson (limit : Nat) (value : Json) : Eval Rule := ofJsonAt limit 0 value

end Rule

/-- The rules of an output document that a document writes. They always make up an object: the entry
`$each` has no meaning among them. -/
def RuleSet.ofJson (limit : Nat) : Json → Eval RuleSet
  | .object entries => do
    let entries ← Rule.ofJsonEntries limit 1 entries
    return ⟨entries⟩
  | value => throw (.notARule value.kind)

end Reshape
