import Reshape.Path.Basic

/-!
# Rules

A rule says how a value of the output comes about. It is a text, a path into the input, an object
whose entries are rules, or a repeating rule: a body of fields that is evaluated once for each item
of a path, with the outcomes collected into an array or, if there is a key, into an object.

Keys that begin with `$` are reserved. In a repeating rule three of them have a meaning.
-/

namespace Reshape

/-- Whether a text begins with `$`, as a path does, and as a reserved key does. -/
def beginsWithDollar (text : String) : Bool := text.toList.head? == some '$'

/-- Whether a key is reserved. -/
def isReserved (key : String) : Bool := beginsWithDollar key

/-- The entry that makes a rule repeating: the path of its items. -/
def eachEntry : String := "$each"

/-- The entry that evaluates to the key of an item. -/
def keyEntry : String := "$key"

/-- The entry that evaluates to the place of an item in the output. -/
def indexEntry : String := "$index"

/-- A rule. -/
inductive Rule where
  | text (text : String)
  | path (path : Path)
  | object (entries : List (String × Rule))
  | each (path : Path) (key index : Option Rule) (fields : List (String × Rule))

namespace Rule

instance : Inhabited Rule := ⟨.text ""⟩

mutual

/-- Rules are compared entry by entry, in order. -/
def decEq : (a b : Rule) → Decidable (a = b)
  | .text x, b => match b with
    | .text y => decidable_of_iff (x = y) (by simp)
    | .path _ | .object _ | .each .. => isFalse nofun
  | .path x, b => match b with
    | .path y => decidable_of_iff (x = y) (by simp)
    | .text _ | .object _ | .each .. => isFalse nofun
  | .object xs, b => match b with
    | .object ys => @decidable_of_iff _ (xs = ys) (by simp) (decEqEntries xs ys)
    | .text _ | .path _ | .each .. => isFalse nofun
  | .each p k i xs, b => match b with
    | .each q l j ys =>
      @decidable_of_iff _ (p = q ∧ k = l ∧ i = j ∧ xs = ys) (by simp)
        (@instDecidableAnd _ _ _ (@instDecidableAnd _ _ (decEqOption k l)
          (@instDecidableAnd _ _ (decEqOption i j) (decEqEntries xs ys))))
    | .text _ | .path _ | .object _ => isFalse nofun

/-- The same for rules that may be absent. -/
def decEqOption : (a b : Option Rule) → Decidable (a = b)
  | none, b => match b with
    | none => isTrue rfl
    | some _ => isFalse nofun
  | some x, b => match b with
    | none => isFalse nofun
    | some y => @decidable_of_iff _ (x = y) (by simp) (decEq x y)

/-- The same for entries. -/
def decEqEntries : (xs ys : List (String × Rule)) → Decidable (xs = ys)
  | [], ys => match ys with
    | [] => isTrue rfl
    | _ :: _ => isFalse nofun
  | (k, x) :: xs, ys => match ys with
    | [] => isFalse nofun
    | (l, y) :: ys => @decidable_of_iff _ (k = l ∧ x = y ∧ xs = ys) (by simp [and_assoc])
        (@instDecidableAnd _ _ _ (@instDecidableAnd _ _ (decEq x y) (decEqEntries xs ys)))

end

instance : DecidableEq Rule := decEq

end Rule

/-- The rules of an output document: one for each of its entries. -/
structure RuleSet where
  entries : List (String × Rule)
deriving DecidableEq

namespace RuleSet

/-- The rule of an entry. -/
def get? (rules : RuleSet) (key : String) : Option Rule := Entries.get? rules.entries key

/-- The number of entries. -/
def size (rules : RuleSet) : Nat := rules.entries.length

/-- Whether there is no entry. -/
def isEmpty (rules : RuleSet) : Bool := rules.entries.isEmpty

end RuleSet

end Reshape
