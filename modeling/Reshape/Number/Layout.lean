import Reshape.Number.Shortest

/-!
# Layouts of decimal text

How the digits of a double are set out: where positional notation ends, whether a whole number is
marked by `.0`, and which of two equally near digits is taken. A layout holds these decisions, and
`Double.text` writes a double by one.
-/

namespace Reshape

/-- The decisions behind the text of a double. The point position `p` says that the value is `0.d`
times `10 ^ p` for its digits `d`. -/
structure DecimalLayout where
  tie : Tie
  positional : Int → Bool
  markWhole : Bool

/-- Numbers in a JSON text: positional from 0.00001 up to 16 digits before the point, a whole number
marked by `.0`. -/
def jsonLayout : DecimalLayout where
  tie := .toEven
  positional point := -5 < point && point ≤ 16
  markWhole := true

/-- Numbers in a sentence: always positional, whole numbers without a point. -/
def plainLayout : DecimalLayout where
  tie := .up
  positional _ := true
  markWhole := false

/-- Digits with the point set at its position, filled up by zeros. -/
def positionalText (markWhole : Bool) (digits : List Char) (point : Int) : List Char :=
  if point ≤ 0 then '0' :: '.' :: List.replicate (-point).toNat '0' ++ digits
  else if digits.length ≤ point.toNat then
    digits ++ List.replicate (point.toNat - digits.length) '0' ++
      (if markWhole then ['.', '0'] else [])
  else digits.take point.toNat ++ '.' :: digits.drop point.toNat

/-- Digits with the point behind the first one, and the power of ten that sets it there. -/
def exponentText (digits : List Char) (point : Int) : List Char :=
  let power := point - 1
  digits.take 1 ++ (if digits.length ≤ 1 then [] else '.' :: digits.drop 1) ++
    'e' :: (if power < 0 then '-' else '+') :: Nat.toDigits 10 power.natAbs

/-- The text of a double: its shortest digits set out by the layout. -/
def Double.text (layout : DecimalLayout) (x : Double) : String :=
  let decimal := Decimal.shortest layout.tie x.rank
  let digits := Nat.toDigits 10 decimal.digits
  let point := digits.length + decimal.exponent
  String.ofList <| (if x.negative then ['-'] else []) ++
    if layout.positional point then positionalText layout.markWhole digits point
    else exponentText digits point

end Reshape
