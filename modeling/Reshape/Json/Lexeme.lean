import Reshape.Number.Numeral

/-!
# Lexemes of JSON texts

A JSON text is cut into lexemes one character at a time: brackets and separators, quoted strings,
and words, which are the longest runs of other characters between blanks and must spell a literal or
a numeral.

Escapes can spell half of a surrogate pair, for which there is no character. Such a string has no
text (`none`), and is a fault only where its text is asked for.
-/

namespace Reshape

/-- A smallest part of a JSON text. -/
inductive Lexeme where
  | openArray
  | closeArray
  | openObject
  | closeObject
  | colon
  | comma
  | null
  | bool (value : Bool)
  | numeral (value : Numeral)
  | string (text : Option String)
deriving DecidableEq

namespace Lexeme

/-! ## Strings -/

/-- A part of a quoted string: a character, or a code unit that an escape spells in hexadecimal. -/
inductive Piece where
  | char (c : Char)
  | unit (code : Nat)
deriving DecidableEq

/-- Whether a code unit opens a surrogate pair. -/
def isHighSurrogate (code : Nat) : Bool := 0xD800 ≤ code && code < 0xDC00

/-- Whether a code unit closes a surrogate pair. -/
def isLowSurrogate (code : Nat) : Bool := 0xDC00 ≤ code && code < 0xE000

/-- The characters that pieces spell; none if half of a surrogate pair stands alone. -/
def charsOfPieces? : List Piece → Option (List Char)
  | [] => some []
  | .char c :: rest => (charsOfPieces? rest).map (c :: ·)
  | .unit high :: .unit low :: rest =>
    if isHighSurrogate high then
      if isLowSurrogate low then
        let code := 0x10000 + (high - 0xD800) * 0x400 + (low - 0xDC00)
        (charsOfPieces? rest).map (Char.ofNat code :: ·)
      else none
    else if isLowSurrogate high then none
    else (charsOfPieces? (.unit low :: rest)).map (Char.ofNat high :: ·)
  | .unit code :: rest =>
    if isHighSurrogate code || isLowSurrogate code then none
    else (charsOfPieces? rest).map (Char.ofNat code :: ·)

/-- The character that a one-letter escape spells. -/
def escaped? : Char → Option Char
  | '"' => some '"'
  | '\\' => some '\\'
  | '/' => some '/'
  | 'b' => some '\x08'
  | 'f' => some '\x0c'
  | 'n' => some '\n'
  | 'r' => some '\r'
  | 't' => some '\t'
  | _ => none

/-- The value of a hexadecimal digit. -/
def hexDigit? (c : Char) : Option Nat :=
  if c.isDigit then some (c.toNat - '0'.toNat)
  else if 'a' ≤ c ∧ c ≤ 'f' then some (c.toNat - 'a'.toNat + 10)
  else if 'A' ≤ c ∧ c ≤ 'F' then some (c.toNat - 'A'.toNat + 10)
  else none

/-! ## Words -/

/-- The literal or the numeral that a word spells. -/
def ofWord? (word : List Char) : Option Lexeme :=
  if word = ['n', 'u', 'l', 'l'] then some .null
  else if word = ['t', 'r', 'u', 'e'] then some (.bool true)
  else if word = ['f', 'a', 'l', 's', 'e'] then some (.bool false)
  else match Numeral.ofChars? word with
    | some n => if n.IsJson then some (.numeral n) else none
    | none => none

/-- The bracket or separator that a character is. -/
def ofMark? : Char → Option Lexeme
  | '[' => some .openArray
  | ']' => some .closeArray
  | '\x7b' => some .openObject
  | '\x7d' => some .closeObject
  | ':' => some .colon
  | ',' => some .comma
  | _ => none

/-- The characters that may stand between lexemes. -/
def isSpace (c : Char) : Bool := c = ' ' || c = '\t' || c = '\n' || c = '\r'

/-! ## Cutting a text -/

/-- What is being read. Words and strings are kept last character first. -/
inductive Reading where
  | between
  | word (before : List Char)
  | string (before : List Piece)
  | escape (before : List Piece)
  | hex (before : List Piece) (code : Nat) (missing : Nat)

/-- The lexemes read so far, the last one first, and what is being read. -/
structure Progress where
  found : List Lexeme
  reading : Reading

/-- Read a character that stands outside words and strings. -/
def start (found : List Lexeme) (c : Char) : Progress :=
  if isSpace c then ⟨found, .between⟩
  else if c = '"' then ⟨found, .string []⟩
  else match ofMark? c with
    | some mark => ⟨mark :: found, .between⟩
    | none => ⟨found, .word [c]⟩

/-- Whether a character ends the word before it. -/
def endsWord (c : Char) : Bool := isSpace c || c = '"' || (ofMark? c).isSome

/-- Read one character. -/
def step (progress : Progress) (c : Char) : Option Progress :=
  let found := progress.found
  match progress.reading with
  | .between => some (start found c)
  | .word before =>
    if endsWord c then (ofWord? before.reverse).map fun word => start (word :: found) c
    else some ⟨found, .word (c :: before)⟩
  | .string before =>
    if c = '"' then
      some ⟨.string ((charsOfPieces? before.reverse).map String.ofList) :: found, .between⟩
    else if c = '\\' then some ⟨found, .escape before⟩
    else if c.toNat < 0x20 then none
    else some ⟨found, .string (.char c :: before)⟩
  | .escape before =>
    if c = 'u' then some ⟨found, .hex before 0 4⟩
    else (escaped? c).map fun char => ⟨found, .string (.char char :: before)⟩
  | .hex before code missing =>
    (hexDigit? c).map fun digit =>
      let code := 16 * code + digit
      if missing ≤ 1 then ⟨found, .string (.unit code :: before)⟩
      else ⟨found, .hex before code (missing - 1)⟩

/-- The lexemes at the end of a text, which no string may be left open at. -/
def finish (progress : Progress) : Option (List Lexeme) :=
  match progress.reading with
  | .between => some progress.found.reverse
  | .word before => (ofWord? before.reverse).map fun word => (word :: progress.found).reverse
  | .string _ | .escape _ | .hex .. => none

/-- The lexemes of a text, if it can be cut into lexemes. -/
def ofChars? (text : List Char) : Option (List Lexeme) :=
  (text.foldlM step ⟨[], .between⟩).bind finish

end Lexeme

end Reshape
