import Reshape.Json.Basic

/-!
# Compact texts of documents

The text of a document has no blanks. Entries stand in their order, numbers keep their form, and in
a string only the quote, the backslash and the control characters are escaped. This text is also
what a value other than a string becomes when it is used as a key, see `Json.asKey`.
-/

namespace Reshape

/-- A character inside a quoted string. -/
def escapeChar (c : Char) : List Char :=
  match c with
  | '"' => ['\\', '"']
  | '\\' => ['\\', '\\']
  | '\x08' => ['\\', 'b']
  | '\x0c' => ['\\', 'f']
  | '\n' => ['\\', 'n']
  | '\r' => ['\\', 'r']
  | '\t' => ['\\', 't']
  | _ =>
    if c.toNat < 0x20 then
      ['\\', 'u', '0', '0', Nat.digitChar (c.toNat / 16), Nat.digitChar (c.toNat % 16)]
    else [c]

/-- A string between quotes. -/
def quote (text : String) : String :=
  String.ofList ('"' :: text.toList.flatMap escapeChar ++ ['"'])

/-- Texts in a row, separated by commas. -/
def commaSeparated (texts : List String) : String := String.intercalate "," texts

namespace Json

mutual

/-- The compact text of a value. -/
def text : Json → String
  | .null => "null"
  | .bool true => "true"
  | .bool false => "false"
  | .number value => value.text
  | .string text => quote text
  | .array items => "[" ++ commaSeparated (itemTexts items) ++ "]"
  | .object entries => "\x7b" ++ commaSeparated (entryTexts entries) ++ "\x7d"

/-- The texts of the items of an array. -/
def itemTexts : List Json → List String
  | [] => []
  | value :: rest => value.text :: itemTexts rest

/-- The texts of the entries of an object. -/
def entryTexts : List (String × Json) → List String
  | [] => []
  | (key, value) :: rest => (quote key ++ ":" ++ value.text) :: entryTexts rest

end

/-- The text of a value that is used as a key or as a path segment: a string stands for itself, any
other value for its compact text. -/
def asKey : Json → String
  | .string text => text
  | value => value.text

end Json

end Reshape
