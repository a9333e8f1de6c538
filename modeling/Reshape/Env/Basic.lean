import Reshape.Json.Text
import Reshape.Path.Token

/-!
# Environments

An environment holds the values of the variables that are bound. Binding a variable makes a new
environment and leaves the outer one as it is. `Env.fill` puts bound variables into the tokens of a
path, where a value stands as the key it can be used as.
-/

namespace Reshape

/-- The values of bound variables. -/
structure Env where
  bindings : Entries Json
deriving DecidableEq

namespace Env

/-- Nothing is bound. -/
def empty : Env := ⟨[]⟩

/-- The value bound to a name. -/
def get? (env : Env) (name : String) : Option Json := Entries.get? env.bindings name

/-- Whether a name is bound. -/
def binds (env : Env) (name : String) : Bool := (env.get? name).isSome

/-- The number of bound names. -/
def size (env : Env) : Nat := env.bindings.length

/-- Whether no name is bound. -/
def isEmpty (env : Env) : Bool := env.bindings.isEmpty

/-- The environment in which `name` is bound to `value`, and everything else as before. -/
def bind (env : Env) (name : String) (value : Json) : Env :=
  ⟨Entries.insert env.bindings name value⟩

/-- The environment of some bindings, later ones replacing earlier ones. -/
def ofList (pairs : List (String × Json)) : Env := ⟨Entries.insertAll [] pairs⟩

/-- The bindings sorted by name. -/
def toList (env : Env) : List (String × Json) :=
  env.bindings.mergeSort fun a b => a.1 ≤ b.1

/-- A bound variable becomes the key that its value stands for; any other token stays. -/
def fillToken (env : Env) : Token → Token
  | .key text => .key text
  | .var name =>
    match env.get? name with
    | some value => .key value.asKey
    | none => .var name

/-- Put all bound variables into tokens. -/
def fill (env : Env) (tokens : List Token) : List Token := tokens.map env.fillToken

theorem get?_bind (env : Env) (name other : String) (value : Json) :
    (env.bind name value).get? other = if name = other then some value else env.get? other :=
  Entries.get?_insert env.bindings name other value

@[simp] theorem get?_empty (name : String) : empty.get? name = none := rfl

end Env

end Reshape
