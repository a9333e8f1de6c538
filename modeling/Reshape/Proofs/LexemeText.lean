import Reshape.Json.Lexeme
import Reshape.Json.Text
import Reshape.Proofs.NumeralText
import Reshape.Proofs.Parts

/-!
# Lexemes of compact texts

The compact text of a document is cut into the lexemes that one expects: `Lexeme.ofChars?_text`.
A piece of a text `Closes` lexemes if reading it adds them to those before and leaves nothing open,
and it `Spells` them if the last one may be a word that goes on until something ends it. Pieces are
put together by these two: a bracket, a comma or a colon behind a piece closes it.
-/

namespace Reshape

namespace Lexeme

/-! ## Pieces of a text -/

/-- The lexemes up to a place outside strings, with the word that ends there if one is open. -/
def Progress.upTo? (progress : Progress) : Option (List Lexeme) :=
  match progress.reading with
  | .between => some progress.found
  | .word before => (ofWord? before.reverse).map (· :: progress.found)
  | .string _ | .escape _ | .hex .. => none

theorem finish_of_upTo? {progress : Progress} {found : List Lexeme}
    (upTo : progress.upTo? = some found) : finish progress = some found.reverse := by
  obtain ⟨before, reading⟩ := progress
  cases reading with
  | between =>
    cases upTo
    rfl
  | word word =>
    obtain ⟨lexeme, read, rfl⟩ := Option.map_eq_some_iff.mp upTo
    exact congrArg (Option.map fun word => (word :: before).reverse) read
  | string pieces => cases upTo
  | escape pieces => cases upTo
  | hex pieces code missing => cases upTo

/-- A character that ends words begins anew. -/
theorem step_of_upTo? {progress : Progress} {found : List Lexeme} {c : Char}
    (upTo : progress.upTo? = some found) (ends : endsWord c = true) :
    step progress c = some (start found c) := by
  obtain ⟨before, reading⟩ := progress
  cases reading with
  | between =>
    cases upTo
    rfl
  | word word =>
    obtain ⟨lexeme, read, rfl⟩ := Option.map_eq_some_iff.mp upTo
    unfold step
    dsimp only
    rw [if_pos ends, read]
    rfl
  | string pieces => cases upTo
  | escape pieces => cases upTo
  | hex pieces code missing => cases upTo

/-- The piece adds the lexemes to those before it and leaves nothing open. -/
def Closes (piece : List Char) (lexemes : List Lexeme) : Prop :=
  ∀ found, piece.foldlM step ⟨found, .between⟩ = some ⟨lexemes.reverse ++ found, .between⟩

/-- The piece adds the lexemes to those before it; the last one may be a word that is open. -/
def Spells (piece : List Char) (lexemes : List Lexeme) : Prop :=
  ∀ found, ∃ progress, piece.foldlM step ⟨found, .between⟩ = some progress ∧
    progress.upTo? = some (lexemes.reverse ++ found)

theorem Closes.spells {piece : List Char} {lexemes : List Lexeme}
    (closes : Closes piece lexemes) : Spells piece lexemes :=
  fun found => ⟨_, closes found, rfl⟩

theorem closes_nil : Closes [] [] := fun _ => rfl

variable {first second : List Char} {lexemes others : List Lexeme}

theorem Closes.append (front : Closes first lexemes) (back : Closes second others) :
    Closes (first ++ second) (lexemes ++ others) := by
  intro found
  rw [List.foldlM_append, front found, List.reverse_append, List.append_assoc]
  exact back (lexemes.reverse ++ found)

theorem Closes.append_spells (front : Closes first lexemes) (back : Spells second others) :
    Spells (first ++ second) (lexemes ++ others) := by
  intro found
  obtain ⟨progress, read, upTo⟩ := back (lexemes.reverse ++ found)
  refine ⟨progress, ?_, ?_⟩
  · rw [List.foldlM_append, front found]
    exact read
  · rw [upTo, List.reverse_append, List.append_assoc]

/-- A bracket or separator closes what is open in front of it. -/
theorem Spells.concat_mark (front : Spells first lexemes) {c : Char} {mark : Lexeme}
    (isMark : ofMark? c = some mark) : Closes (first ++ [c]) (lexemes ++ [mark]) := by
  intro found
  obtain ⟨progress, read, upTo⟩ := front found
  have ends : endsWord c = true := by
    unfold endsWord
    rw [isMark, Bool.or_eq_true]
    exact Or.inr rfl
  have begun : start (lexemes.reverse ++ found) c =
      ⟨mark :: (lexemes.reverse ++ found), .between⟩ := by
    have noSpace : isSpace c = false := by
      refine Bool.eq_false_iff.mpr fun space => ?_
      simp only [isSpace, Bool.or_eq_true, decide_eq_true_eq] at space
      rcases space with ((rfl | rfl) | rfl) | rfl <;> cases isMark
    have noQuote : c ≠ '"' := by
      rintro rfl
      cases isMark
    unfold start
    rw [noSpace, if_neg Bool.false_ne_true, if_neg noQuote, isMark]
  rw [List.foldlM_append, read]
  change step progress c >>= pure = _
  rw [step_of_upTo? upTo ends, begun, List.reverse_append]
  rfl

theorem closes_mark {c : Char} {mark : Lexeme} (isMark : ofMark? c = some mark) :
    Closes [c] [mark] := closes_nil.spells.concat_mark isMark

/-- A text that spells lexemes is cut into them. -/
theorem ofChars?_of_spells (spells : Spells first lexemes) : ofChars? first = some lexemes := by
  obtain ⟨progress, read, upTo⟩ := spells []
  unfold ofChars?
  rw [read]
  change finish progress = some lexemes
  rw [finish_of_upTo? upTo, List.append_nil, List.reverse_reverse]

/-! ## Words -/

/-- Inside a word characters are collected. -/
theorem foldlM_step_word {word : List Char} (inside : ∀ c ∈ word, endsWord c = false)
    (found : List Lexeme) (before : List Char) :
    word.foldlM step ⟨found, .word before⟩ = some ⟨found, .word (word.reverse ++ before)⟩ := by
  induction word generalizing before with
  | nil => rfl
  | cons c rest ih =>
    obtain ⟨first, inside⟩ := List.forall_mem_cons.mp inside
    have taken : step ⟨found, .word before⟩ c = some ⟨found, .word (c :: before)⟩ := by
      unfold step
      dsimp only
      rw [first]
      rfl
    rw [List.foldlM_cons, taken, List.reverse_cons, List.append_assoc]
    exact ih inside (c :: before)

theorem spells_word {word : List Char} {lexeme : Lexeme} (nonempty : word ≠ [])
    (inside : ∀ c ∈ word, endsWord c = false) (read : ofWord? word = some lexeme) :
    Spells word [lexeme] := by
  intro found
  obtain ⟨c, rest, rfl⟩ := List.exists_cons_of_ne_nil nonempty
  obtain ⟨first, inside⟩ := List.forall_mem_cons.mp inside
  have begun : step ⟨found, .between⟩ c = some ⟨found, .word [c]⟩ := by
    simp only [endsWord, Bool.or_eq_false_iff, decide_eq_false_iff_not,
      Option.isSome_eq_false_iff, Option.isNone_iff_eq_none] at first
    obtain ⟨⟨noSpace, noQuote⟩, noMark⟩ := first
    change some (start found c) = _
    unfold start
    rw [noSpace, if_neg Bool.false_ne_true, if_neg noQuote, noMark]
  refine ⟨⟨found, .word (rest.reverse ++ [c])⟩, ?_, ?_⟩
  · rw [List.foldlM_cons, begun]
    exact foldlM_step_word inside found [c]
  · unfold Progress.upTo?
    dsimp only
    rw [← List.reverse_cons, List.reverse_reverse, read]
    rfl

theorem endsWord_of_isDigit {c : Char} (digit : c.isDigit = true) : endsWord c = false := by
  -- the digits are among the first characters, and these can be tried
  have small : ∀ n < 58, (Char.ofNat n).isDigit = true → endsWord (Char.ofNat n) = false := by
    decide
  have below : c.toNat < 58 := by
    simp only [Char.isDigit, Bool.and_eq_true, decide_eq_true_eq, ge_iff_le] at digit
    exact Nat.lt_succ_of_le digit.2
  have same := small c.toNat below
  rw [Char.ofNat_toNat] at same
  exact same digit

theorem endsWord_of_mem_chars {n : Numeral} (digital : n.Digital) :
    ∀ c ∈ n.chars, endsWord c = false := by
  have digits : ∀ digits : List Char, (∀ c ∈ digits, c.isDigit = true) →
      ∀ c ∈ digits, endsWord c = false :=
    fun digits all c member => endsWord_of_isDigit (all c member)
  have sign : ∀ sign : Sign, ∀ c ∈ sign.chars, endsWord c = false := by
    intro sign c member
    cases sign with
    | absent => cases member
    | plus => rw [List.mem_singleton.mp member]; rfl
    | minus => rw [List.mem_singleton.mp member]; rfl
  obtain ⟨front, whole, fraction, exponent⟩ := n
  refine List.forall_mem_append.mpr ⟨sign front, List.forall_mem_append.mpr
    ⟨digits whole digital.whole, List.forall_mem_append.mpr ⟨?_, ?_⟩⟩⟩
  · cases fraction with
    | none => exact nofun
    | some fraction =>
      exact List.forall_mem_cons.mpr ⟨rfl, digits fraction (digital.fraction fraction rfl)⟩
  · cases exponent with
    | none => exact nofun
    | some power =>
      exact List.forall_mem_cons.mpr ⟨rfl, List.forall_mem_append.mpr
        ⟨sign power.1, digits power.2 (digital.exponent power rfl).2⟩⟩

theorem ofWord?_chars {n : Numeral} (digital : n.Digital) (json : n.IsJson) :
    ofWord? n.chars = some (.numeral n) := by
  have full : n.whole ≠ [] := by
    rcases json.2.1 with zero | ⟨full, _⟩
    · rw [zero]
      exact List.cons_ne_nil _ _
    · exact full
  have read : Numeral.ofChars? n.chars = some n := Numeral.ofChars?_chars digital full
  -- the words of the literals are no numerals
  have noLiteral : ∀ word, Numeral.ofChars? word = none → n.chars ≠ word := by
    intro word unread same
    rw [same, unread] at read
    cases read
  unfold ofWord?
  rw [if_neg (noLiteral _ rfl), if_neg (noLiteral _ rfl), if_neg (noLiteral _ rfl), read]
  exact if_pos json

theorem spells_number (value : Number) :
    Spells value.text.toList [.numeral value.numeral] := by
  have digital := value.digital_numeral
  have read := ofWord?_chars digital value.isJson_numeral
  rw [← value.chars_numeral]
  refine spells_word ?_ (endsWord_of_mem_chars digital) read
  intro empty
  rw [empty] at read
  cases read

/-! ## Strings -/

/-- The piece of a string that spells a character: the character itself, or the code of a control
character. -/
def Piece.Is (c : Char) (piece : Piece) : Prop :=
  piece = .char c ∨ piece = .unit c.toNat ∧ c.toNat < 0x20

theorem hexDigit?_digitChar : ∀ n < 16, hexDigit? (Nat.digitChar n) = some n := by decide

/-- The escape of a code below 256 adds the code to a string. -/
theorem foldlM_step_code {code : Nat} (short : code < 256) (found : List Lexeme)
    (before : List Piece) :
    ['\\', 'u', '0', '0', Nat.digitChar (code / 16), Nat.digitChar (code % 16)].foldlM step
      ⟨found, .string before⟩ = some ⟨found, .string (.unit code :: before)⟩ := by
  have opened : ['\\', 'u', '0', '0'].foldlM step ⟨found, .string before⟩ =
      some ⟨found, .hex before 0 2⟩ := rfl
  have third : step ⟨found, .hex before 0 2⟩ (Nat.digitChar (code / 16)) =
      some ⟨found, .hex before (code / 16) 1⟩ := by
    unfold step
    dsimp only
    rw [hexDigit?_digitChar (code / 16) (by omega), Option.map_some, Nat.mul_zero, Nat.zero_add]
    rfl
  have fourth : step ⟨found, .hex before (code / 16) 1⟩ (Nat.digitChar (code % 16)) =
      some ⟨found, .string (.unit code :: before)⟩ := by
    unfold step
    dsimp only
    rw [hexDigit?_digitChar (code % 16) (by omega), Option.map_some, Nat.div_add_mod]
    rfl
  change (['\\', 'u', '0', '0'] ++ [_, _]).foldlM step _ = _
  rw [List.foldlM_append, opened]
  change (step _ _ >>= fun progress => step progress _ >>= pure) = _
  rw [third]
  change step _ _ >>= pure = _
  rw [fourth]
  rfl

/-- An escaped character adds one piece to a string. -/
theorem foldlM_step_escapeChar (c : Char) (found : List Lexeme) (before : List Piece) :
    ∃ piece : Piece, piece.Is c ∧
      (escapeChar c).foldlM step ⟨found, .string before⟩ =
        some ⟨found, .string (piece :: before)⟩ := by
  unfold escapeChar
  split
  · exact ⟨.char '"', Or.inl rfl, rfl⟩
  · exact ⟨.char '\\', Or.inl rfl, rfl⟩
  · exact ⟨.char '\x08', Or.inl rfl, rfl⟩
  · exact ⟨.char '\x0c', Or.inl rfl, rfl⟩
  · exact ⟨.char '\n', Or.inl rfl, rfl⟩
  · exact ⟨.char '\r', Or.inl rfl, rfl⟩
  · exact ⟨.char '\t', Or.inl rfl, rfl⟩
  · next noQuote noBackslash _ _ _ _ _ =>
    -- a character that has no letter of its own
    split
    · next control =>
      have short : c.toNat < 256 := by omega
      exact ⟨.unit c.toNat, Or.inr ⟨rfl, control⟩, foldlM_step_code short found before⟩
    · next plain =>
      refine ⟨.char c, Or.inl rfl, ?_⟩
      change step ⟨found, .string before⟩ c >>= pure = _
      unfold step
      dsimp only
      rw [if_neg noQuote, if_neg noBackslash, if_neg plain]
      rfl

theorem charsOfPieces?_unit_cons {code : Nat} (control : code < 0x20) (rest : List Piece) :
    charsOfPieces? (.unit code :: rest) = (charsOfPieces? rest).map (Char.ofNat code :: ·) := by
  have high : isHighSurrogate code = false := by
    unfold isHighSurrogate
    simp only [Bool.and_eq_false_iff, decide_eq_false_iff_not]
    omega
  have low : isLowSurrogate code = false := by
    unfold isLowSurrogate
    simp only [Bool.and_eq_false_iff, decide_eq_false_iff_not]
    omega
  rcases rest with _ | ⟨_ | _, rest⟩
  · simp [charsOfPieces?, high, low]
  · simp [charsOfPieces?, high, low]
  · simp [charsOfPieces?, high, low]

/-- Pieces spell the characters that they are the pieces of. -/
theorem charsOfPieces?_of_is {chars : List Char} {pieces : List Piece}
    (are : List.Forall₂ (fun c piece => Piece.Is c piece) chars pieces) :
    charsOfPieces? pieces = some chars := by
  induction are with
  | nil => rfl
  | cons first _ ih =>
    rcases first with rfl | ⟨rfl, control⟩
    · rw [charsOfPieces?, ih]
      rfl
    · rw [charsOfPieces?_unit_cons control, ih, Char.ofNat_toNat]
      rfl

/-- The characters between the quotes add their pieces to a string. -/
theorem foldlM_step_escaped (chars : List Char) (found : List Lexeme) (before : List Piece) :
    ∃ pieces, List.Forall₂ (fun c piece => Piece.Is c piece) chars pieces ∧
      (chars.flatMap escapeChar).foldlM step ⟨found, .string before⟩ =
        some ⟨found, .string (pieces.reverse ++ before)⟩ := by
  induction chars generalizing before with
  | nil => exact ⟨[], .nil, rfl⟩
  | cons c rest ih =>
    obtain ⟨piece, isPiece, first⟩ := foldlM_step_escapeChar c found before
    obtain ⟨pieces, are, others⟩ := ih (piece :: before)
    refine ⟨piece :: pieces, .cons isPiece are, ?_⟩
    rw [List.flatMap_cons, List.foldlM_append, first, List.reverse_cons, List.append_assoc]
    exact others

theorem closes_quote (text : String) : Closes (quote text).toList [.string (some text)] := by
  intro found
  obtain ⟨pieces, are, read⟩ := foldlM_step_escaped text.toList found []
  have spelled : (charsOfPieces? pieces.reverse.reverse).map String.ofList = some text := by
    rw [List.reverse_reverse, charsOfPieces?_of_is are]
    exact congrArg some String.ofList_toList
  unfold quote
  rw [String.toList_ofList, List.cons_append, List.foldlM_cons]
  change (_ ++ ['"']).foldlM step ⟨found, .string []⟩ = _
  rw [List.foldlM_append, read, List.append_nil]
  change some (Progress.mk (.string ((charsOfPieces? pieces.reverse.reverse).map
    String.ofList) :: found) .between) = _
  rw [spelled]
  rfl

/-! ## Documents -/

theorem toList_commaSeparated (texts : List String) :
    (commaSeparated texts).toList = [','].intercalate (texts.map String.toList) :=
  String.toList_intercalate

/-- Texts separated by commas. -/
theorem spells_commaSeparated {texts : List String} {parts : List (List Lexeme)}
    (spell : List.Forall₂ (fun text part => Spells text.toList part) texts parts) :
    Spells (commaSeparated texts).toList ([Lexeme.comma].intercalate parts) := by
  rw [toList_commaSeparated]
  induction spell with
  | nil => exact closes_nil.spells
  | @cons text part texts parts first rest ih =>
    cases rest with
    | nil => simpa using first
    | cons second rest =>
      rw [List.map_cons, List.map_cons, List.intercalate_cons_cons, List.intercalate_cons_cons]
      exact (first.concat_mark rfl).append_spells ih

/-- A piece between brackets. -/
theorem Spells.enclosed (inside : Spells first lexemes) {front back : Char}
    {opening closing : Lexeme} (opens : ofMark? front = some opening)
    (closes : ofMark? back = some closing) :
    Closes ([front] ++ first ++ [back]) (opening :: (lexemes ++ [closing])) := by
  rw [List.append_assoc]
  exact (closes_mark opens).append (inside.concat_mark closes)

end Lexeme

namespace Json

mutual

/-- The lexemes of a document. -/
def lexemes : Json → List Lexeme
  | .null => [.null]
  | .bool value => [.bool value]
  | .number value => [.numeral value.numeral]
  | .string text => [.string (some text)]
  | .array items =>
    .openArray :: ([Lexeme.comma].intercalate (itemLexemes items) ++ [.closeArray])
  | .object entries =>
    .openObject :: ([Lexeme.comma].intercalate (entryLexemes entries) ++ [.closeObject])

/-- The lexemes of each item of an array. -/
def itemLexemes : List Json → List (List Lexeme)
  | [] => []
  | value :: rest => value.lexemes :: itemLexemes rest

/-- The lexemes of each entry of an object. -/
def entryLexemes : List (String × Json) → List (List Lexeme)
  | [] => []
  | (key, value) :: rest => (.string (some key) :: .colon :: value.lexemes) :: entryLexemes rest

end

/-- The compact text of a document spells its lexemes. -/
theorem spells_text (value : Json) : Lexeme.Spells value.text.toList value.lexemes := by
  have inside : ∀ word : List Char, (word.all fun c => !Lexeme.endsWord c) = true →
      ∀ c ∈ word, Lexeme.endsWord c = false := by
    intro word all c member
    simpa using List.all_eq_true.mp all c member
  induction value with
  | null => exact Lexeme.spells_word (List.cons_ne_nil _ _) (inside _ rfl) rfl
  | bool value =>
    cases value with
    | true => exact Lexeme.spells_word (List.cons_ne_nil _ _) (inside _ rfl) rfl
    | false => exact Lexeme.spells_word (List.cons_ne_nil _ _) (inside _ rfl) rfl
  | number value => exact Lexeme.spells_number value
  | string text => exact (Lexeme.closes_quote text).spells
  | array items ih =>
    have parts : List.Forall₂ (fun text part => Lexeme.Spells text.toList part)
        (itemTexts items) (itemLexemes items) := by
      induction items with
      | nil => exact .nil
      | cons item rest inner =>
        obtain ⟨first, ih⟩ := List.forall_mem_cons.mp ih
        exact .cons first (inner ih)
    rw [Json.text, String.toList_append, String.toList_append]
    exact ((Lexeme.spells_commaSeparated parts).enclosed rfl rfl).spells
  | object entries ih =>
    have parts : List.Forall₂ (fun text part => Lexeme.Spells text.toList part)
        (entryTexts entries) (entryLexemes entries) := by
      induction entries with
      | nil => exact .nil
      | cons entry rest inner =>
        obtain ⟨key, value⟩ := entry
        obtain ⟨first, ih⟩ := List.forall_mem_cons.mp ih
        refine .cons ?_ (inner ih)
        rw [String.toList_append, String.toList_append]
        exact ((Lexeme.closes_quote key).append (Lexeme.closes_mark rfl)).append_spells first
    rw [Json.text, String.toList_append, String.toList_append]
    exact ((Lexeme.spells_commaSeparated parts).enclosed rfl rfl).spells

end Json

/-- The compact text of a document is cut into its lexemes. -/
theorem Lexeme.ofChars?_text (value : Json) : ofChars? value.text.toList = some value.lexemes :=
  ofChars?_of_spells value.spells_text

end Reshape
