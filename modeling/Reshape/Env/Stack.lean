import Reshape.Env.Basic

/-!
# Stacks of environments

Environments inside each other. The innermost one is on top, and the outermost one never leaves the
stack.
-/

namespace Reshape

/-- Environments inside each other, the innermost one first. -/
structure Env.Stack where
  top : Env
  below : List Env
deriving DecidableEq

namespace Env.Stack

/-- An environment alone. -/
def ofEnv (env : Env) : Stack := ⟨env, []⟩

/-- The number of environments. -/
def depth (stack : Stack) : Nat := stack.below.length + 1

/-- Enter an environment. -/
def push (stack : Stack) (env : Env) : Stack := ⟨env, stack.top :: stack.below⟩

/-- Leave the innermost environment, unless it is the only one. -/
def pop (stack : Stack) : Stack :=
  match stack.below with
  | [] => stack
  | env :: rest => ⟨env, rest⟩

end Env.Stack

end Reshape
