import Reshape.Json.Source
import Reshape.Proofs.LexemeText

/-!
# Trees of compact texts

The lexemes of a document make up its tree, in which numbers stand as they are written and strings
as they are (`Source.ofLexemes?_lexemes`). With the lexemes of its text, the tree of every document
is read from the compact text of the document: `Source.ofText?_text`.
-/

namespace Reshape

namespace Json

mutual

/-- The tree of a document. -/
def source : Json → Source
  | .null => .null
  | .bool value => .bool value
  | .number value => .numeral value.numeral
  | .string text => .string (some text)
  | .array items => .array (itemSources items)
  | .object entries => .object (entrySources entries)

/-- The trees of the items of an array. -/
def itemSources : List Json → List Source
  | [] => []
  | value :: rest => value.source :: itemSources rest

/-- The trees of the entries of an object. -/
def entrySources : List (String × Json) → List (Option String × Source)
  | [] => []
  | (key, value) :: rest => (some key, value.source) :: entrySources rest

end

theorem entrySources_eq (entries : List (String × Json)) :
    entrySources entries = entries.map fun entry => (some entry.1, entry.2.source) := by
  induction entries with
  | nil => rfl
  | cons entry rest ih =>
    obtain ⟨key, value⟩ := entry
    rw [entrySources, ih, List.map_cons]

end Json

/-- Parts that are separated are a first part and, behind a separator each, the others. -/
theorem intercalate_cons_eq {α : Type} (separator : α) (first : List α) (rest : List (List α)) :
    [separator].intercalate (first :: rest) = first ++ rest.flatMap (separator :: ·) := by
  induction rest generalizing first with
  | nil => simp
  | cons second rest ih =>
    rw [List.intercalate_cons_cons, ih, List.flatMap_cons]
    simp

namespace Source

/-- The lexemes of a value are read like a value where the first item of an array may stand. -/
theorem foldlM_step_firstItem (value : Json) (frames : List Frame) (rest : List Lexeme) :
    (value.lexemes ++ rest).foldlM step (.firstItem frames) =
      (value.lexemes ++ rest).foldlM step (.value (.array [] :: frames)) := by
  cases value with
  | null => rfl
  | bool value => rfl
  | number value => rfl
  | string text => rfl
  | array items => rfl
  | object entries => rfl

/-- Behind an item stand the other items and the closing bracket. -/
theorem foldlM_step_items {items : List Json}
    (read : ∀ item ∈ items, ∀ frames, item.lexemes.foldlM step (.value frames) =
      some (.after frames item.source)) (frames : List Frame) (before : List Source)
    (value : Source) :
    ((Json.itemLexemes items).flatMap (Lexeme.comma :: ·) ++ [Lexeme.closeArray]).foldlM step
        (.after (.array before :: frames) value) =
      some (.after frames (.array ((value :: before).reverse ++ Json.itemSources items))) := by
  induction items generalizing before value with
  | nil =>
    rw [Json.itemSources, List.append_nil]
    rfl
  | cons item rest ih =>
    obtain ⟨first, read⟩ := List.forall_mem_cons.mp read
    rw [Json.itemLexemes, List.flatMap_cons, List.cons_append, List.cons_append,
      List.foldlM_cons, List.append_assoc]
    change (item.lexemes ++ _).foldlM step (.value (.array (value :: before) :: frames)) = _
    rw [List.foldlM_append, first]
    refine (ih read (value :: before) item.source).trans ?_
    rw [Json.itemSources, List.reverse_cons, List.append_assoc]
    rfl

/-- Behind an entry stand the other entries and the closing bracket. -/
theorem foldlM_step_entries {entries : List (String × Json)}
    (read : ∀ entry ∈ entries, ∀ frames, entry.2.lexemes.foldlM step (.value frames) =
      some (.after frames entry.2.source)) (frames : List Frame)
    (before : List (Option String × Source)) (key : Option String) (value : Source) :
    ((Json.entryLexemes entries).flatMap (Lexeme.comma :: ·) ++ [Lexeme.closeObject]).foldlM step
        (.after (.object before key :: frames) value) =
      some (.after frames
        (.object (((key, value) :: before).reverse ++ Json.entrySources entries))) := by
  induction entries generalizing before key value with
  | nil =>
    rw [Json.entrySources, List.append_nil]
    rfl
  | cons entry rest ih =>
    obtain ⟨name, item⟩ := entry
    obtain ⟨first, read⟩ := List.forall_mem_cons.mp read
    rw [Json.entryLexemes, List.flatMap_cons, List.cons_append, List.cons_append,
      List.cons_append, List.cons_append, List.append_assoc]
    change (item.lexemes ++ _).foldlM step
      (.value (.object ((key, value) :: before) (some name) :: frames)) = _
    rw [List.foldlM_append, first]
    refine (ih read ((key, value) :: before) (some name) item.source).trans ?_
    rw [Json.entrySources, List.reverse_cons, List.append_assoc]
    rfl

/-- The lexemes of a value are put together to its tree, whatever brackets are open. -/
theorem foldlM_step_lexemes (value : Json) (frames : List Frame) :
    value.lexemes.foldlM step (.value frames) = some (.after frames value.source) := by
  induction value generalizing frames with
  | null => rfl
  | bool value => rfl
  | number value => rfl
  | string text => rfl
  | array items ih =>
    cases items with
    | nil => rfl
    | cons item rest =>
      obtain ⟨first, ih⟩ := List.forall_mem_cons.mp ih
      rw [Json.lexemes, Json.itemLexemes, intercalate_cons_eq, List.append_assoc]
      change (item.lexemes ++ _).foldlM step (.firstItem frames) = _
      rw [foldlM_step_firstItem, List.foldlM_append, first]
      exact foldlM_step_items ih frames [] item.source
  | object entries ih =>
    cases entries with
    | nil => rfl
    | cons entry rest =>
      obtain ⟨key, item⟩ := entry
      obtain ⟨first, ih⟩ := List.forall_mem_cons.mp ih
      rw [Json.lexemes, Json.entryLexemes, intercalate_cons_eq, List.append_assoc]
      change (item.lexemes ++ _).foldlM step (.value (.object [] (some key) :: frames)) = _
      rw [List.foldlM_append, first]
      exact foldlM_step_entries ih frames [] (some key) item.source

theorem ofLexemes?_lexemes (value : Json) : ofLexemes? value.lexemes = some value.source := by
  unfold ofLexemes?
  rw [foldlM_step_lexemes]
  rfl

/-- The compact text of a document is read as the tree of the document. -/
theorem ofText?_text (value : Json) : ofText? value.text = some value.source := by
  unfold ofText?
  rw [Lexeme.ofChars?_text]
  exact ofLexemes?_lexemes value

end Source

end Reshape
