import Reshape.Env.Subst
import Reshape.Path.Items
import Reshape.Rule.Outcome

/-!
# Evaluating rules

Rules are evaluated in a context: the root document, in which repeating rules find their items, the
current document, in which paths are followed, and an environment. A repeating rule evaluates its
body in the context of each item, where the item is the current document and the environment binds
the item's variable.

The environment is substituted in texts and in the values that paths lead to, and once more in the
value of every entry of an object before it is written.
-/

namespace Reshape

/-- What a rule sees when it is evaluated. -/
structure Context where
  root : Json
  current : Json
  env : Env
deriving DecidableEq

namespace Context

/-- The context of a whole document. -/
def ofDocument (document : Json) (env : Env) : Context := ⟨document, document, env⟩

/-- The context of an item. -/
def enter (context : Context) (item : Item) : Context :=
  { context with current := item.value, env := item.env }

end Context

namespace Rule

mutual

/-- Evaluate a rule. -/
def eval (missing : Missing) : Rule → Context → Eval (Option Json)
  | .text source, context => context.env.substText source
  | .path source, context => do
    match ← context.current.follow (context.env.fill source.tokens) with
    | some value => context.env.subst missing value
    | none => do
      Logged.emit (.pathMissing source)
      return none
  | .object entries, context => do
    let entries ← evalEntries missing entries context []
    return some (.object entries)
  | .each source key index fields, context => do
    let items ← source.items context.root context.env
    let outcomes ← items.mapM fun item => do
      let inner := context.enter item
      let key ← evalOption missing key inner
      let index ← evalOption missing index inner
      let fields ← evalEntries missing fields inner []
      return ({ key, index, fields } : Outcome)
    Logged.emit (.collecting outcomes.length source key.isSome)
    let value ← if key.isSome then Outcome.toObject outcomes else Outcome.toArray outcomes
    return some value

/-- Evaluate a rule that may be absent, and substitute once more. -/
def evalOption (missing : Missing) : Option Rule → Context → Eval (Option Json)
  | none, _ => pure none
  | some rule, context => do
    let value ← eval missing rule context
    context.env.substOption missing value

/-- Evaluate entries one after another, substitute once more, and write them behind those written
before. -/
def evalEntries (missing : Missing) :
    List (String × Rule) → Context → Entries Json → Eval (Entries Json)
  | [], _, written => pure written
  | (key, rule) :: rest, context, written => do
    let value ← eval missing rule context
    let value ← context.env.substOption missing value
    let written ← missing.put written key value
    evalEntries missing rest context written

end

end Rule

end Reshape
