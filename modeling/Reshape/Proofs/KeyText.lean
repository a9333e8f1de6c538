import Reshape.Json.Text
import Reshape.Rule.Basic

/-!
# Texts of keys

A reserved key is no variable reference (`isReference_eq_false_of_isReserved`). A value that is used
as a key stands as a text, and that text can be a variable reference only if the value is a string:
no number writes a colon, and every other value begins with a letter, a bracket or a brace
(`Json.eq_string_of_isReference_asKey`). So a reference never arises from a value that holds none.
-/

namespace Reshape

/-- A reference begins with a colon. -/
theorem head?_eq_of_isReference {text : String} (reference : isReference text = true) :
    text.toList.head? = some ':' := by
  unfold isReference at reference
  split at reference
  · next shape => rw [shape]; rfl
  · cases reference

theorem isReference_eq_false_of_isReserved {key : String} (reserved : isReserved key = true) :
    isReference key = false := by
  refine Bool.eq_false_iff.mpr fun reference => ?_
  rw [isReserved, beginsWithDollar, head?_eq_of_isReference reference] at reserved
  exact absurd reserved (by decide)

theorem isReserved_eachEntry : isReserved eachEntry = true := by decide

theorem isReserved_keyEntry : isReserved keyEntry = true := by decide

theorem isReserved_indexEntry : isReserved indexEntry = true := by decide

/-! ## Numbers -/

theorem colon_not_mem_toDigits (n : Nat) : ':' ∉ Nat.toDigits 10 n := by
  intro member
  have digit := Nat.isDigit_of_mem_toDigits (by decide) (by decide) member
  exact absurd digit (by decide)

theorem colon_not_mem_positionalText {markWhole : Bool} {digits : List Char} (point : Int)
    (free : ':' ∉ digits) : ':' ∉ positionalText markWhole digits point := by
  unfold positionalText
  split
  · simp [free]
  · split
    · cases markWhole <;> simp [free]
    · intro member
      rcases List.mem_append.mp member with front | back
      · exact free (List.mem_of_mem_take front)
      · rcases List.mem_cons.mp back with colon | back
        · exact absurd colon (by decide)
        · exact free (List.mem_of_mem_drop back)

theorem colon_not_mem_exponentText {digits : List Char} (point : Int) (free : ':' ∉ digits) :
    ':' ∉ exponentText digits point := by
  have power := colon_not_mem_toDigits (point - 1).natAbs
  have front : ':' ∉ digits.take 1 := fun member => free (List.mem_of_mem_take member)
  have back : ':' ∉ digits.tail := fun member => free (List.mem_of_mem_tail member)
  unfold exponentText
  dsimp only
  split <;> split <;> simp [front, back, power]

theorem Double.colon_not_mem_text (layout : DecimalLayout) (x : Double) :
    ':' ∉ (x.text layout).toList := by
  have digits := colon_not_mem_toDigits (Decimal.shortest layout.tie x.rank).digits
  unfold Double.text
  dsimp only
  rw [String.toList_ofList, List.mem_append, not_or]
  refine ⟨by split <;> simp, ?_⟩
  split
  · exact colon_not_mem_positionalText _ digits
  · exact colon_not_mem_exponentText _ digits

theorem Number.colon_not_mem_text (number : Number) : ':' ∉ number.text.toList := by
  cases number with
  | integer value =>
    have digits := colon_not_mem_toDigits value.natAbs
    rw [Number.text, Number.integerText, String.toList_ofList, List.mem_append, not_or]
    exact ⟨by split <;> simp, digits⟩
  | double value => exact value.colon_not_mem_text jsonLayout

/-! ## Values -/

/-- A value whose text is a reference is the string of that reference. -/
theorem Json.eq_string_of_isReference_asKey {value : Json}
    (reference : isReference value.asKey = true) : value = .string value.asKey := by
  have head := head?_eq_of_isReference reference
  cases value with
  | string text => rfl
  | null => exact absurd head (by decide)
  | bool value => cases value <;> exact absurd head (by decide)
  | number value =>
    change value.text.toList.head? = some ':' at head
    exact absurd (List.mem_of_mem_head? head) value.colon_not_mem_text
  | array items =>
    change ("[" ++ commaSeparated (itemTexts items) ++ "]").toList.head? = some ':' at head
    simp [String.toList_append] at head
  | object entries =>
    change ("\x7b" ++ commaSeparated (entryTexts entries) ++ "\x7d").toList.head? = some ':' at head
    simp [String.toList_append] at head

end Reshape
