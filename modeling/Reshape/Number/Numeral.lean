import Reshape.Number.Basic
import Reshape.Text.Blank

/-!
# Numerals

A numeral is a number as it is written: a sign, digits before and behind the point, and a power of
ten. `Numeral.ofChars?` splits a text into these parts, and `Numeral.IsJson` tells which numerals a
JSON text admits. There are two readings of a numeral.

* `Numeral.nearest?` is the double nearest to the value written.
* `Numeral.number?` is the number of a document. A numeral of digits alone is an integer as long as
  it fits 64 bits. Any other is a double, found in two rounded steps: the digits that fit 64 bits
  are collected into a significand, and the significand is scaled by a power of ten.
-/

namespace Reshape

/-- The sign in front of digits. -/
inductive Sign where
  | absent
  | plus
  | minus
deriving DecidableEq

namespace Sign

/-- The sign at the front of a text, and what follows it. -/
def split : List Char → Sign × List Char
  | '+' :: rest => (.plus, rest)
  | '-' :: rest => (.minus, rest)
  | text => (.absent, text)

/-- Whether the sign makes a number negative. -/
def isMinus (sign : Sign) : Bool := sign == .minus

end Sign

/-- The parts of a written number; the digits are kept as characters. -/
structure Numeral where
  sign : Sign
  whole : List Char
  fraction : Option (List Char)
  exponent : Option (Sign × List Char)
deriving DecidableEq

namespace Numeral

/-! ## Parts of a text -/

/-- The digits behind a point at the front of a text, and what follows them. -/
def splitFraction : List Char → Option (List Char) × List Char
  | '.' :: rest => (some (rest.takeWhile Char.isDigit), rest.dropWhile Char.isDigit)
  | text => (none, text)

/-- The power of ten that makes up a whole text; none if the text is no power. -/
def splitExponent? : List Char → Option (Option (Sign × List Char))
  | [] => some none
  | c :: rest =>
    let (sign, digits) := Sign.split rest
    if (c = 'e' || c = 'E') && !digits.isEmpty && digits.all Char.isDigit then
      some (some (sign, digits))
    else none

/-- The numeral that a text spells. At least one digit stands before or behind the point. -/
def ofChars? (text : List Char) : Option Numeral :=
  let (sign, unsigned) := Sign.split text
  let whole := unsigned.takeWhile Char.isDigit
  let (fraction, rest) := splitFraction (unsigned.dropWhile Char.isDigit)
  if whole.isEmpty && (fraction.getD []).isEmpty then none
  else (splitExponent? rest).map fun exponent => { sign, whole, fraction, exponent }

/-- A JSON text has no plus sign in front, at least one digit on each side of a point, and no zero
before other digits. -/
def IsJson (n : Numeral) : Prop :=
  n.sign ≠ .plus ∧ (n.whole = ['0'] ∨ (n.whole ≠ [] ∧ n.whole.head? ≠ some '0')) ∧
    n.fraction ≠ some []

instance (n : Numeral) : Decidable n.IsJson :=
  inferInstanceAs (Decidable (_ ∧ _ ∧ _))

/-! ## The nearest double -/

/-- The number that digits spell. -/
def digitsValue (digits : List Char) : Nat := Nat.ofDigitChars 10 digits 0

/-- The power of ten as an integer. -/
def power (n : Numeral) : Int :=
  match n.exponent with
  | none => 0
  | some (sign, digits) => if sign.isMinus then -(digitsValue digits : Int) else digitsValue digits

/-- The double nearest to the number written, if it is finite. Values beyond `10 ^ 310` are not, and
those below `10 ^ (-330)` are zero, whatever their power. -/
def nearest? (n : Numeral) : Option Double :=
  let fraction := n.fraction.getD []
  let digits := digitsValue (n.whole ++ fraction)
  let exponent := n.power - fraction.length
  let size := (Nat.toDigits 10 digits).length + exponent
  if digits = 0 || size < -330 then some (Double.zero.withSign n.sign.isMinus)
  else if 310 < size then none
  else Double.ofRatio? n.sign.isMinus (digits * Decimal.raise exponent) (Decimal.lower exponent)

/-! ## Numbers of a document -/

/-- The significand is less than this. -/
def significandLimit : Nat := Nat.pow 2 64

/-- Collect digits before the point while they fit. The result is the significand and the number of
digits left out. -/
def collectWhole (significand : Nat) : List Char → Nat × Nat
  | [] => (significand, 0)
  | c :: rest =>
    let next := 10 * significand + digitsValue [c]
    if next < significandLimit then collectWhole next rest else (significand, rest.length + 1)

/-- Collect digits behind the point while they fit. The result is the significand and the number of
digits taken in. -/
def collectFraction (significand : Nat) : List Char → Nat × Nat
  | [] => (significand, 0)
  | c :: rest =>
    let next := 10 * significand + digitsValue [c]
    if next < significandLimit then
      let (collected, taken) := collectFraction next rest
      (collected, taken + 1)
    else (significand, 0)

/-- The largest power of ten by which a double is scaled in one step. -/
def stepExponent : Nat := 308

/-- The double nearest to a power of ten. -/
def powerOfTen (exponent : Nat) : Double := .ofNat false (Nat.pow 10 exponent)

/-- Divide by a power of ten, in several steps if one is not enough. -/
def scaleDown (x : Double) (exponent : Nat) : Option Double :=
  if exponent ≤ stepExponent then x.div? (powerOfTen exponent)
  else if x.isZero then some x
  else (x.div? (powerOfTen stepExponent)).bind (scaleDown · (exponent - stepExponent))
termination_by exponent
decreasing_by simp only [stepExponent] at *; omega

/-- Multiply by a power of ten; none when the product is not finite. -/
def scaleUp (x : Double) (exponent : Nat) : Option Double :=
  if exponent ≤ stepExponent then x.mul? (powerOfTen exponent)
  else if x.isZero then some x
  else none

/-- A significand times a power of ten, rounded at each step. -/
def scale (significand : Nat) (exponent : Int) : Option Double :=
  let x := Double.ofNat false significand
  if exponent < 0 then scaleDown x exponent.natAbs else scaleUp x exponent.natAbs

/-- The integer written, if the numeral has digits alone and fits 64 bits. The negative zero is no
integer. -/
def integer? (n : Numeral) : Option Int :=
  if n.fraction.isNone && n.exponent.isNone then
    let magnitude := digitsValue n.whole
    if n.sign.isMinus then
      if 0 < magnitude && magnitude ≤ Nat.pow 2 63 then some (-(magnitude : Int)) else none
    else if magnitude < significandLimit then some magnitude else none
  else none

/-- The double written, found by scaling the significand. -/
def double? (n : Numeral) : Option Double :=
  let (whole, dropped) := collectWhole 0 n.whole
  let (significand, taken) := collectFraction whole (n.fraction.getD [])
  (scale significand (n.power + dropped - taken)).map (·.withSign n.sign.isMinus)

/-- The number of a document that the numeral writes; none when it is beyond the doubles. -/
def number? (n : Numeral) : Option Number :=
  match n.integer? with
  | some value => some (.integer value)
  | none => n.double?.map .double

end Numeral

/-- The double that a text spells, blanks around it aside. -/
def Double.ofText? (text : String) : Option Double :=
  (Numeral.ofChars? (trimBlanks text.toList)).bind Numeral.nearest?

end Reshape
