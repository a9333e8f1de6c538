import Reshape.Number.Layout

/-!
# Numbers

A number of a document is an integer or a double, and stays what it was written as: `1` and `1.0`
are different numbers with different texts.
-/

namespace Reshape

/-- A number: an integer, or a finite double. -/
inductive Number where
  | integer (value : Int)
  | double (value : Double)
deriving DecidableEq

namespace Number

/-- The nearest double. -/
def toDouble : Number → Double
  | .integer value => .ofInt value
  | .double value => value

/-- The text of an integer. -/
def integerText (value : Int) : String :=
  String.ofList <| (if value < 0 then ['-'] else []) ++ Nat.toDigits 10 value.natAbs

/-- The text of a number in a JSON text. -/
def text : Number → String
  | .integer value => integerText value
  | .double value => value.text jsonLayout

end Number

end Reshape
