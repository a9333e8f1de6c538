import Reshape.Text.Blank

/-!
# Variable references

A text such as `:row` refers to a variable. The same spelling is used in path segments, in string
values and in keys of objects.
-/

namespace Reshape

/-- Whether a text refers to a variable: a colon and at least one more character, none of which is
blank. -/
def isReference (text : String) : Bool :=
  match text.toList with
  | ':' :: c :: rest => (c :: rest).all fun c => !isBlank c
  | _ => false

end Reshape
