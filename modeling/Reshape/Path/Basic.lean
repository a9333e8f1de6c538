import Reshape.Path.Token
import Reshape.Error

/-!
# Paths

A path leads from the root of a document through a list of tokens. Its text is `$`, followed by the
text of each token behind a dot. `Path.ofText` reads such texts; what stands between two dots is not
empty and holds no blank.
-/

namespace Reshape

/-- A path from the root of a document. -/
structure Path where
  tokens : List Token
deriving DecidableEq

namespace Path

/-- The text of a path. -/
def text (path : Path) : String :=
  "$" ++ String.join (path.tokens.map fun token => "." ++ token.text)

/-- Whether characters between two dots make a segment. -/
def isSegment (segment : List Char) : Bool :=
  !segment.isEmpty && segment.all fun c => !isBlank c

/-- The path that a text spells. -/
def ofText? (text : String) : Option Path :=
  match text.toList.splitOn '.' with
  | ['$'] :: segments =>
    if segments.all isSegment then
      some ⟨segments.map fun segment => Token.ofText (String.ofList segment)⟩
    else none
  | _ => none

/-- The path that a text spells; any other text is a malformed path. -/
def ofText (text : String) : Except Error Path :=
  match ofText? text with
  | some path => .ok path
  | none => .error (.malformedPath text)

/-- Whether the path stays at the root. -/
def isRoot (path : Path) : Bool := path.tokens.isEmpty

/-- Whether a token of the path is a variable. -/
def hasVariables (path : Path) : Bool := path.tokens.any Token.isVariable

end Path

end Reshape
