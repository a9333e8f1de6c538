import Reshape.Json.Basic
import Reshape.Json.Lexeme

/-!
# Reading JSON texts

The lexemes of a text are put together to a tree, `Source`, by a stack of the brackets that are
still open. The tree has the shape of a document, but its numerals and strings are not yet given a
meaning: what can be read as a tree is decided by the grammar alone. `Json.ofSource?` gives the
meaning. It fails on numerals beyond the doubles and on strings without a text, and writes entries
of one key into the same place, the last one winning.
-/

namespace Reshape

/-- The tree of a JSON text. -/
inductive Source where
  | null
  | bool (value : Bool)
  | numeral (value : Numeral)
  | string (text : Option String)
  | array (items : List Source)
  | object (entries : List (Option String × Source))

instance : Inhabited Source := ⟨.null⟩

namespace Source

/-! ## Trees from lexemes -/

/-- An open bracket with what was read behind it, last part first, up to the value that comes
next. -/
inductive Frame where
  | array (before : List Source)
  | object (before : List (Option String × Source)) (key : Option String)

/-- What the text before a place leaves to come, inside the open brackets. -/
inductive Expectation where
  | value (frames : List Frame)
  | firstItem (frames : List Frame)
  | firstKey (frames : List Frame)
  | key (frames : List Frame) (before : List (Option String × Source))
  | colon (frames : List Frame) (before : List (Option String × Source)) (key : Option String)
  | after (frames : List Frame) (value : Source)

/-- Begin a value. -/
def begin? (frames : List Frame) : Lexeme → Option Expectation
  | .null => some (.after frames .null)
  | .bool value => some (.after frames (.bool value))
  | .numeral value => some (.after frames (.numeral value))
  | .string text => some (.after frames (.string text))
  | .openArray => some (.firstItem frames)
  | .openObject => some (.firstKey frames)
  | .closeArray | .closeObject | .colon | .comma => none

/-- Take in one lexeme. -/
def step : Expectation → Lexeme → Option Expectation
  | .value frames, lexeme => begin? frames lexeme
  | .firstItem frames, .closeArray => some (.after frames (.array []))
  | .firstItem frames, lexeme => begin? (.array [] :: frames) lexeme
  | .firstKey frames, .closeObject => some (.after frames (.object []))
  | .firstKey frames, .string key => some (.colon frames [] key)
  | .key frames before, .string key => some (.colon frames before key)
  | .colon frames before key, .colon => some (.value (.object before key :: frames))
  | .after (.array before :: frames) value, .comma =>
    some (.value (.array (value :: before) :: frames))
  | .after (.array before :: frames) value, .closeArray =>
    some (.after frames (.array (value :: before).reverse))
  | .after (.object before key :: frames) value, .comma =>
    some (.key frames ((key, value) :: before))
  | .after (.object before key :: frames) value, .closeObject =>
    some (.after frames (.object ((key, value) :: before).reverse))
  | _, _ => none

/-- The value read, once no bracket is open and nothing is left to come. -/
def complete? : Expectation → Option Source
  | .after [] value => some value
  | _ => none

/-- The tree that lexemes make up. -/
def ofLexemes? (lexemes : List Lexeme) : Option Source :=
  (lexemes.foldlM step (.value [])).bind complete?

/-- The tree of a text. -/
def ofText? (text : String) : Option Source :=
  (Lexeme.ofChars? text.toList).bind ofLexemes?

end Source

namespace Json

/-! ## Documents from trees -/

mutual

/-- The document that a tree means. -/
def ofSource? : Source → Option Json
  | .null => some .null
  | .bool value => some (.bool value)
  | .numeral value => value.number?.map .number
  | .string text => text.map .string
  | .array items => (ofSourceItems? items).map .array
  | .object entries =>
    (ofSourceEntries? entries).map fun pairs => .object (Entries.insertAll [] pairs)

/-- The items of an array. -/
def ofSourceItems? : List Source → Option (List Json)
  | [] => some []
  | item :: rest => do
    let value ← ofSource? item
    let values ← ofSourceItems? rest
    return value :: values

/-- The entries of an object, as they stand in the text. -/
def ofSourceEntries? : List (Option String × Source) → Option (List (String × Json))
  | [] => some []
  | (key, item) :: rest => do
    let key ← key
    let value ← ofSource? item
    let entries ← ofSourceEntries? rest
    return (key, value) :: entries

end

/-- The document that a text spells. -/
def ofText? (text : String) : Option Json := (Source.ofText? text).bind ofSource?

end Json

end Reshape
