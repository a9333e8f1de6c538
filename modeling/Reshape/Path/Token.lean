import Reshape.Reference

/-!
# Path tokens

A token is one step of a path: a key, which is also an array position if it is written in digits, or
a variable, whose name is its whole text with the colon.
-/

namespace Reshape

/-- One step of a path. -/
inductive Token where
  | key (text : String)
  | var (name : String)
deriving DecidableEq

namespace Token

/-- The token that is written as a text. -/
def ofText (text : String) : Token :=
  if isReference text then .var text else .key text

/-- The text that a token is written as. -/
def text : Token → String
  | .key text => text
  | .var name => name

/-- Whether the token is a variable. -/
def isVariable : Token → Bool
  | .key _ => false
  | .var _ => true

/-- Array positions that can be written are less than this. -/
def positionLimit : Nat := Nat.pow 2 64

/-- The array position that a key in ASCII digits stands for. -/
def position? : Token → Option Nat
  | .key text =>
    let digits := text.toList
    if digits.isEmpty || !digits.all Char.isDigit then none
    else
      let position := Nat.ofDigitChars 10 digits 0
      if position < positionLimit then some position else none
  | .var _ => none

/-- The names of the variables among tokens, as often as they occur. -/
def variableNames (tokens : List Token) : List String :=
  tokens.filterMap fun
    | .key _ => none
    | .var name => some name

@[simp] theorem text_ofText (text : String) : (ofText text).text = text := by
  unfold ofText
  split <;> rfl

end Token

end Reshape
