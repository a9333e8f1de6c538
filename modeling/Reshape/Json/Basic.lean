import Reshape.Entries
import Reshape.Number.Basic

/-!
# Documents

A document is a JSON value. The entries of an object keep their order, and the type admits two
entries of one key: `Json.DistinctKeys` says that there are none, which holds of every document that
was read from a text.
-/

namespace Reshape

/-- A JSON value. -/
inductive Json where
  | null
  | bool (value : Bool)
  | number (value : Number)
  | string (text : String)
  | array (items : List Json)
  | object (entries : List (String × Json))

namespace Json

instance : Inhabited Json := ⟨.null⟩

/-- The number that counts or numbers something. -/
def ofNat (n : Nat) : Json := .number (.integer n)

/-- The value in a place that must hold one: a missing value is `null` there. -/
def orNull (value : Option Json) : Json := value.getD .null

/-! ## Kinds -/

/-- The six kinds of values. -/
inductive Kind where
  | null
  | boolean
  | number
  | string
  | array
  | object
deriving DecidableEq

/-- The name of a kind. -/
def Kind.name : Kind → String
  | .null => "null"
  | .boolean => "boolean"
  | .number => "number"
  | .string => "string"
  | .array => "array"
  | .object => "object"

/-- The kind of a value. -/
def kind : Json → Kind
  | .null => .null
  | .bool _ => .boolean
  | .number _ => .number
  | .string _ => .string
  | .array _ => .array
  | .object _ => .object

/-! ## Equality -/

mutual

/-- Values are compared entry by entry, in order. -/
def decEq : (a b : Json) → Decidable (a = b)
  | .null, b => match b with
    | .null => isTrue rfl
    | .bool _ | .number _ | .string _ | .array _ | .object _ => isFalse nofun
  | .bool x, b => match b with
    | .bool y => decidable_of_iff (x = y) (by simp)
    | .null | .number _ | .string _ | .array _ | .object _ => isFalse nofun
  | .number x, b => match b with
    | .number y => decidable_of_iff (x = y) (by simp)
    | .null | .bool _ | .string _ | .array _ | .object _ => isFalse nofun
  | .string x, b => match b with
    | .string y => decidable_of_iff (x = y) (by simp)
    | .null | .bool _ | .number _ | .array _ | .object _ => isFalse nofun
  | .array xs, b => match b with
    | .array ys => @decidable_of_iff _ (xs = ys) (by simp) (decEqItems xs ys)
    | .null | .bool _ | .number _ | .string _ | .object _ => isFalse nofun
  | .object xs, b => match b with
    | .object ys => @decidable_of_iff _ (xs = ys) (by simp) (decEqEntries xs ys)
    | .null | .bool _ | .number _ | .string _ | .array _ => isFalse nofun

/-- The same for the items of arrays. -/
def decEqItems : (xs ys : List Json) → Decidable (xs = ys)
  | [], ys => match ys with
    | [] => isTrue rfl
    | _ :: _ => isFalse nofun
  | x :: xs, ys => match ys with
    | [] => isFalse nofun
    | y :: ys => @decidable_of_iff _ (x = y ∧ xs = ys) (by simp)
        (@instDecidableAnd _ _ (decEq x y) (decEqItems xs ys))

/-- The same for the entries of objects. -/
def decEqEntries : (xs ys : List (String × Json)) → Decidable (xs = ys)
  | [], ys => match ys with
    | [] => isTrue rfl
    | _ :: _ => isFalse nofun
  | (k, x) :: xs, ys => match ys with
    | [] => isFalse nofun
    | (l, y) :: ys => @decidable_of_iff _ (k = l ∧ x = y ∧ xs = ys) (by simp [and_assoc])
        (@instDecidableAnd _ _ _ (@instDecidableAnd _ _ (decEq x y) (decEqEntries xs ys)))

end

instance : DecidableEq Json := decEq

/-! ## Distinct keys -/

mutual

/-- No object in the value has two entries of one key. -/
def DistinctKeys : Json → Prop
  | .array items => DistinctKeysItems items
  | .object entries => (Entries.keys entries).Nodup ∧ DistinctKeysEntries entries
  | _ => True

/-- The same of every item. -/
def DistinctKeysItems : List Json → Prop
  | [] => True
  | value :: rest => value.DistinctKeys ∧ DistinctKeysItems rest

/-- The same of the value of every entry. -/
def DistinctKeysEntries : List (String × Json) → Prop
  | [] => True
  | (_, value) :: rest => value.DistinctKeys ∧ DistinctKeysEntries rest

end

theorem distinctKeysItems_iff {items : List Json} :
    DistinctKeysItems items ↔ ∀ value ∈ items, value.DistinctKeys := by
  induction items with
  | nil => simp [DistinctKeysItems]
  | cons value rest ih => simp [DistinctKeysItems, ih]

theorem distinctKeysEntries_iff {entries : List (String × Json)} :
    DistinctKeysEntries entries ↔ ∀ entry ∈ entries, entry.2.DistinctKeys := by
  induction entries with
  | nil => simp [DistinctKeysEntries]
  | cons entry rest ih =>
    obtain ⟨key, value⟩ := entry
    rw [DistinctKeysEntries, ih]
    simp

mutual

/-- Whether keys are distinct is decided part by part. -/
def decDistinctKeys : (value : Json) → Decidable value.DistinctKeys
  | .array items => decDistinctKeysItems items
  | .object entries =>
    @instDecidableAnd _ (DistinctKeysEntries entries) inferInstance (decDistinctKeysEntries entries)
  | .null | .bool _ | .number _ | .string _ => isTrue trivial

/-- The same for the items of an array. -/
def decDistinctKeysItems : (items : List Json) → Decidable (DistinctKeysItems items)
  | [] => isTrue trivial
  | value :: rest =>
    @instDecidableAnd _ _ (decDistinctKeys value) (decDistinctKeysItems rest)

/-- The same for the values of entries. -/
def decDistinctKeysEntries :
    (entries : List (String × Json)) → Decidable (DistinctKeysEntries entries)
  | [] => isTrue trivial
  | (_, value) :: rest =>
    @instDecidableAnd _ _ (decDistinctKeys value) (decDistinctKeysEntries rest)

end

instance (value : Json) : Decidable value.DistinctKeys := decDistinctKeys value

end Json

end Reshape
