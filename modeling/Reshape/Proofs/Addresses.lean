import Mathlib.Data.List.Forall2
import Mathlib.Data.Nat.Digits.Defs
import Reshape.Proofs.Parts
import Reshape.Proofs.Results

/-!
# Addresses

An address says where a value is in a document: a list of steps, each of them the key of an entry or
the position of an item. A path gives no address of its own. What its tokens mean is settled step by
step by the value reached so far: any token can be a key, and a key in digits can be a position too.

* `Token.Denotes` relates a token to the steps that it can stand for. One token leads where such a
  step leads (`Json.hasChild_of_child?`), and every child is reached (`Json.child?_of_hasChild`).
* `Json.value_follow_eq_some_iff`: tokens lead to the values whose addresses they denote, and
  `Json.HasAt.unique`: in one document they denote one valid address at most.
* `Json.follow_finds_addresses`: both of these, how to write an address as tokens, what becomes of a
  token at an array, and the law of appending.
-/

namespace Reshape

/-! ## Numbers in digits -/

/-- The text writes the number in decimal digits, units last. Zeros may stand in front. -/
structure InDigits (text : String) (number : Nat) : Prop where
  nonempty : text ≠ ""
  digits : ∀ c ∈ text.toList, c.isDigit = true
  value : Nat.ofDigits 10 (text.toList.reverse.map fun c => c.toNat - '0'.toNat) = number

/-- Reading digits from the left gives the sum of the digits times powers of ten. -/
theorem ofDigitChars_eq_ofDigits (characters : List Char) :
    Nat.ofDigitChars 10 characters 0 =
      Nat.ofDigits 10 (characters.reverse.map fun c => c.toNat - '0'.toNat) := by
  induction characters with
  | nil => rfl
  | cons c rest ih =>
    rw [Nat.ofDigitChars_cons, Nat.ofDigitChars_eq_ofDigitChars_zero, ih, List.reverse_cons,
      List.map_append, Nat.ofDigits_append, List.length_map, List.length_reverse]
    simp [Nat.add_comm]

theorem InDigits.unique {text : String} {first second : Nat} (left : InDigits text first)
    (right : InDigits text second) : first = second := left.value.symm.trans right.value

theorem inDigits_toString (number : Nat) : InDigits (toString number) number := by
  have characters : (toString number).toList = Nat.toDigits 10 number := Nat.toList_repr
  refine ⟨fun empty => ?_, fun c member => ?_, ?_⟩
  · rw [empty] at characters
    exact Nat.toDigits_ne_nil characters.symm
  · rw [characters] at member
    exact Nat.isDigit_of_mem_toDigits (by decide) (by decide) member
  · rw [← ofDigitChars_eq_ofDigits, characters, Nat.ofDigitChars_ten_toDigits]

/-! ## Steps and addresses -/

namespace Json

/-- One step down a document. -/
inductive Step where
  | key (name : String)
  | position (position : Nat)
deriving DecidableEq

/-- The step exists in the document and leads to the value. -/
inductive HasChild : Json → Step → Json → Prop where
  | entry {entries : List (String × Json)} {name : String} {value : Json} :
    (name, value) ∈ entries → HasChild (.object entries) (.key name) value
  | item {items : List Json} {position : Nat} {value : Json} :
    items[position]? = some value → HasChild (.array items) (.position position) value

/-- The address is valid in the document and leads to the value: every step of it exists in the
value that the steps before lead to. -/
inductive HasAt : Json → List Step → Json → Prop where
  | here (document : Json) : HasAt document [] document
  | down {document child value : Json} {step : Step} {address : List Step} :
    HasChild document step child → HasAt child address value →
    HasAt document (step :: address) value

theorem every_hasChild {here : Json → Prop} {document child : Json} {step : Step}
    (every : document.Every here) (hasChild : document.HasChild step child) :
    child.Every here := by
  cases hasChild with
  | entry member => exact (every_object_iff.mp every).2 _ member
  | item found => exact (every_array_iff.mp every).2 child (List.mem_of_getElem? found)

end Json

/-! ## Tokens -/

namespace Token

/-- The steps that a token can stand for: the key of its text, and, unless it is a variable, the
position that its text writes in digits. -/
inductive Denotes : Token → Json.Step → Prop where
  | key (token : Token) : Denotes token (.key token.text)
  | position {text : String} {position : Nat} :
    InDigits text position → Denotes (.key text) (.position position)

variable {token : Token} {position : Nat}

theorem position?_of_inDigits {text : String} (inDigits : InDigits text position) :
    (Token.key text).position? = if position < positionLimit then some position else none := by
  have nonempty : text.toList.isEmpty = false := by
    rw [List.isEmpty_eq_false_iff]
    exact fun empty => inDigits.nonempty (String.toList_eq_nil_iff.mp empty)
  have digits : text.toList.all Char.isDigit = true := List.all_eq_true.mpr inDigits.digits
  have value : Nat.ofDigitChars 10 text.toList 0 = position := by
    rw [ofDigitChars_eq_ofDigits, inDigits.value]
  rw [Token.position?]
  simp only [nonempty, digits, value, Bool.not_true, Bool.or_false, Bool.false_eq_true, if_false]

theorem position?_of_not_inDigits {text : String} (other : ¬ ∃ number, InDigits text number) :
    (Token.key text).position? = none := by
  rw [Token.position?]
  refine if_pos (Bool.of_not_eq_false fun digits => other ?_)
  rw [Bool.or_eq_false_iff, List.isEmpty_eq_false_iff, Bool.not_eq_false', List.all_eq_true]
    at digits
  exact ⟨_, fun empty => digits.1 (String.toList_eq_nil_iff.mpr empty), digits.2, rfl⟩

/-- A token has a position if it is written in digits and the position is not too large. -/
theorem position?_eq_some_iff :
    token.position? = some position ↔
      token.Denotes (.position position) ∧ position < positionLimit := by
  constructor
  · intro found
    cases token with
    | var name => cases found
    | key text =>
      by_cases inDigits : ∃ number, InDigits text number
      · obtain ⟨number, inDigits⟩ := inDigits
        rw [position?_of_inDigits inDigits] at found
        split at found
        · next small =>
          cases found
          exact ⟨.position inDigits, small⟩
        · cases found
      · rw [position?_of_not_inDigits inDigits] at found
        cases found
  · intro ⟨denotes, small⟩
    cases denotes with
    | position inDigits => rw [position?_of_inDigits inDigits, if_pos small]

example : (Token.key "0042").position? = some 42 ∧ (Token.key "+42").position? = none := by
  decide +kernel

theorem exists_denotes_position_iff :
    (∃ position, token.Denotes (.position position)) ↔
      token.isVariable = false ∧ token.text ≠ "" ∧ ∀ c ∈ token.text.toList, c.isDigit = true := by
  constructor
  · intro ⟨position, denotes⟩
    cases denotes with
    | position inDigits => exact ⟨rfl, inDigits.nonempty, inDigits.digits⟩
  · intro ⟨isKey, nonempty, digits⟩
    cases token with
    | key text => exact ⟨_, .position ⟨nonempty, digits, rfl⟩⟩
    | var name => cases isKey

end Token

/-- The token that is written for a step: a key as it is, and a position in digits. -/
def Json.Step.token : Json.Step → Token
  | .key name => .key name
  | .position index => .key (toString index)

theorem Json.Step.denotes_token (step : Json.Step) : step.token.Denotes step := by
  cases step with
  | key name => exact Token.Denotes.key (.key name)
  | position index => exact Token.Denotes.position (inDigits_toString index)

/-! ## One step -/

namespace Json

variable {document value : Json} {token : Token}

/-- Every position of the array can be written as a token. -/
def ShortArray : Json → Prop
  | .array items => items.length < Token.positionLimit
  | _ => True

/-- At an array, digits are a position, however many they are: no array is as long as the positions
that cannot be written. -/
theorem child?_array_of_denotes {items : List Json} (short : (Json.array items).ShortArray)
    {position : Nat} (denotes : token.Denotes (.position position)) :
    (Json.array items).child? token = items[position]? := by
  rw [child?]
  by_cases small : position < Token.positionLimit
  · rw [Token.position?_eq_some_iff.mpr ⟨denotes, small⟩, Option.bind_some]
  · have beyond : items[position]? = none :=
      List.getElem?_eq_none (Nat.le_trans (Nat.le_of_lt short) (Nat.le_of_not_lt small))
    rw [beyond]
    cases denotes with
    | position inDigits => rw [Token.position?_of_inDigits inDigits, if_neg small, Option.bind_none]

theorem child?_array_of_not_denotes {items : List Json}
    (other : ¬ ∃ position, token.Denotes (.position position)) :
    (Json.array items).child? token = none := by
  rw [child?]
  cases found : token.position? with
  | none => rfl
  | some position => exact absurd ⟨position, (Token.position?_eq_some_iff.mp found).1⟩ other

/-- What a token leads to is a child by a step that the token can stand for. -/
theorem hasChild_of_child? (found : document.child? token = some value) :
    ∃ step, token.Denotes step ∧ document.HasChild step value := by
  cases document with
  | object entries =>
    exact ⟨.key token.text, .key token, .entry (Entries.mem_of_get?_eq_some found)⟩
  | array items =>
    obtain ⟨position, read, found⟩ := Option.bind_eq_some_iff.mp found
    exact ⟨.position position, (Token.position?_eq_some_iff.mp read).1, .item found⟩
  | null => cases found
  | bool value => cases found
  | number value => cases found
  | string text => cases found

/-- Every child is led to by the tokens that can stand for its step. -/
theorem child?_of_hasChild (short : document.ShortArray) (distinct : document.keys.Nodup)
    {step : Step} (denotes : token.Denotes step) (hasChild : document.HasChild step value) :
    document.child? token = some value := by
  cases hasChild with
  | entry member =>
    cases denotes with
    | key => exact Entries.get?_eq_some_of_mem distinct member
  | item found => rw [child?_array_of_denotes short denotes, found]

/-- Of the steps that a token can stand for, one at most exists in a document: an object has keys
only and an array positions only. -/
theorem HasChild.unique {first second : Json} {a b : Step} (distinct : document.keys.Nodup)
    (denotesA : token.Denotes a) (left : document.HasChild a first)
    (denotesB : token.Denotes b) (right : document.HasChild b second) :
    a = b ∧ first = second := by
  cases left with
  | entry member =>
    cases right with
    | entry other =>
      cases denotesA with
      | key =>
        cases denotesB with
        | key =>
          have found := Entries.get?_eq_some_of_mem distinct member
          have again := Entries.get?_eq_some_of_mem distinct other
          exact ⟨rfl, Option.some.inj (found.symm.trans again)⟩
  | item found =>
    cases right with
    | item other =>
      cases denotesA with
      | position inDigits =>
        cases denotesB with
        | position again =>
          cases inDigits.unique again
          exact ⟨rfl, Option.some.inj (found.symm.trans other)⟩

/-! ## All steps -/

/-- What holds of all parts of a document holds of the places that tokens lead to. -/
theorem every_follow {here : Json → Prop} {tokens : List Token} (every : document.Every here)
    (found : (document.follow tokens).value = some value) : value.Every here := by
  induction tokens generalizing document with
  | nil =>
    cases found
    exact every
  | cons token rest ih =>
    rw [value_follow_cons] at found
    obtain ⟨child, found, later⟩ := Option.bind_eq_some_iff.mp found
    obtain ⟨step, _, hasChild⟩ := hasChild_of_child? found
    exact ih (every_hasChild every hasChild) later

/-- Tokens lead to a value if an address does that they denote step by step. -/
theorem value_follow_eq_some_iff {tokens : List Token} (short : document.Every ShortArray)
    (distinct : document.Every fun node => node.keys.Nodup) :
    (document.follow tokens).value = some value ↔
      ∃ address, List.Forall₂ Token.Denotes tokens address ∧ document.HasAt address value := by
  induction tokens generalizing document with
  | nil =>
    constructor
    · intro found
      exact ⟨[], .nil, Option.some.inj found ▸ .here document⟩
    · intro ⟨address, denotes, hasAt⟩
      cases denotes
      cases hasAt
      rfl
  | cons token rest ih =>
    rw [value_follow_cons, Option.bind_eq_some_iff]
    have below {step : Step} {child : Json} (hasChild : document.HasChild step child) :
        (child.follow rest).value = some value ↔
          ∃ address, List.Forall₂ Token.Denotes rest address ∧ child.HasAt address value :=
      ih (every_hasChild short hasChild) (every_hasChild distinct hasChild)
    constructor
    · intro ⟨child, found, later⟩
      obtain ⟨step, denotes, hasChild⟩ := hasChild_of_child? found
      obtain ⟨address, denotesRest, hasAt⟩ := (below hasChild).mp later
      exact ⟨step :: address, .cons denotes denotesRest, .down hasChild hasAt⟩
    · intro ⟨address, denotes, hasAt⟩
      cases denotes with
      | cons denotes denotesRest =>
        cases hasAt with
        | @down _ child _ _ _ hasChild hasAt =>
          have found : document.child? token = some child :=
            child?_of_hasChild (every_here short) (every_here distinct) denotes hasChild
          exact ⟨child, found, (below hasChild).mpr ⟨_, denotesRest, hasAt⟩⟩

/-- Of the addresses that tokens denote, one at most is valid in a document. -/
theorem HasAt.unique {tokens : List Token} {a b : List Step} {first second : Json}
    (distinct : document.Every fun node => node.keys.Nodup)
    (denotesA : List.Forall₂ Token.Denotes tokens a) (left : document.HasAt a first)
    (denotesB : List.Forall₂ Token.Denotes tokens b) (right : document.HasAt b second) :
    a = b := by
  induction tokens generalizing document a b with
  | nil =>
    cases denotesA
    cases denotesB
    rfl
  | cons token rest ih =>
    cases denotesA with
    | cons denotesA restA =>
      cases denotesB with
      | cons denotesB restB =>
        cases left with
        | down childA left =>
          cases right with
          | down childB right =>
            obtain ⟨rfl, rfl⟩ :=
              HasChild.unique (every_here distinct) denotesA childA denotesB childB
            rw [ih (every_hasChild distinct childA) restA left restB right]

/-- Behind tokens that lead somewhere, one token more leads to a child of that place. -/
theorem value_follow_concat {front : List Token} {place : Json}
    (found : (document.follow front).value = some place) (token : Token) :
    (document.follow (front ++ [token])).value = place.child? token := by
  rw [value_follow_append, found, Option.bind_some, value_follow_cons]
  exact Option.bind_fun_some _

/-- Tokens lead to a value exactly if they denote, step by step, an address at which the document
has it, and no other valid address is denoted by them. So the tokens written for an address lead
there. Behind tokens that lead to an array, a token in digits leads to the item in that position, if
there is one, however long the digits are; a variable, the empty text and any text with a character
other than the ten digits lead nowhere. Tokens are followed one part after the other. -/
theorem follow_finds_addresses (short : document.Every ShortArray)
    (distinct : document.DistinctKeys) :
    (∀ tokens value, (document.follow tokens).value = some value ↔
      ∃ address, List.Forall₂ Token.Denotes tokens address ∧ document.HasAt address value) ∧
    (∀ tokens first second value other,
      List.Forall₂ Token.Denotes tokens first → document.HasAt first value →
      List.Forall₂ Token.Denotes tokens second → document.HasAt second other → first = second) ∧
    (∀ address value, document.HasAt address value →
      (document.follow (address.map Step.token)).value = some value) ∧
    (∀ front items, (document.follow front).value = some (.array items) →
      (∀ text position, InDigits text position →
        (document.follow (front ++ [.key text])).value = items[position]?) ∧
      ∀ token : Token, token.isVariable = true ∨ token.text = "" ∨
          (∃ c ∈ token.text.toList, c.isDigit = false) →
        (document.follow (front ++ [token])).value = none) ∧
    ∀ first second, (document.follow (first ++ second)).value =
      (document.follow first).value.bind fun value => (value.follow second).value := by
  have keys := every_nodup_keys distinct
  refine ⟨fun tokens value => value_follow_eq_some_iff short keys, ?_, ?_, ?_,
    value_follow_append document⟩
  · intro tokens first second value other denotesFirst atFirst denotesSecond atSecond
    exact HasAt.unique keys denotesFirst atFirst denotesSecond atSecond
  · intro address value hasAt
    have denotes : List.Forall₂ Token.Denotes (address.map Step.token) address := by
      rw [List.forall₂_map_left_iff, List.forall₂_same]
      exact fun step _ => step.denotes_token
    exact (value_follow_eq_some_iff short keys).mpr ⟨address, denotes, hasAt⟩
  · intro front items found
    have short : (Json.array items).ShortArray := every_here (every_follow short found)
    refine ⟨fun text position inDigits => ?_, fun token odd => ?_⟩
    · rw [value_follow_concat found]
      exact child?_array_of_denotes short (.position inDigits)
    · rw [value_follow_concat found]
      refine child?_array_of_not_denotes fun denotes => ?_
      obtain ⟨key, nonempty, digits⟩ := Token.exists_denotes_position_iff.mp denotes
      rcases odd with isVariable | empty | ⟨c, member, other⟩
      · rw [key] at isVariable
        cases isVariable
      · exact nonempty empty
      · rw [digits c member] at other
        cases other

/-- Digits as a key and as a position with zeros in front, and digits beyond every array. -/
theorem follow_finds_addresses_digits :
    let grid : Json := .object [("007", .array [.null, .array [.bool true]])]
    let document : Json := .object [("rows", .array [.null, grid])]
    let tokens : List Token := [.key "rows", .key "0001", .key "007", .key "01", .key "000"]
    let address : List Step := [.key "rows", .position 1, .key "007", .position 1, .position 0]
    document.Every ShortArray ∧ document.DistinctKeys ∧
      (document.follow tokens).value = some (.bool true) ∧
      (∃ address, List.Forall₂ Token.Denotes tokens address ∧
        document.HasAt address (.bool true)) ∧
      (document.follow (address.map Step.token)).value = some (.bool true) ∧
      (document.follow [.key "rows", .key "18446744073709551617"]).value = none ∧
      (document.follow [.key "rows", .key "+1"]).value = none := by
  intro grid document tokens address
  have short : document.Every ShortArray := by
    simp [document, grid, Every, EveryItem, EveryEntry, ShortArray, Token.positionLimit]
  have distinct : document.DistinctKeys := by
    simp [document, grid, DistinctKeys, DistinctKeysItems, DistinctKeysEntries]
  obtain ⟨found, _, written, behind, _⟩ := follow_finds_addresses short distinct
  have reached : (document.follow tokens).value = some (.bool true) := by decide +kernel
  have toRows : document.HasChild (.key "rows") (.array [.null, grid]) := .entry List.mem_cons_self
  have toGrid : (Json.array [.null, grid]).HasChild (.position 1) grid := .item rfl
  have toCells : grid.HasChild (.key "007") (.array [.null, .array [.bool true]]) :=
    .entry List.mem_cons_self
  have toRow : (Json.array [.null, .array [.bool true]]).HasChild (.position 1)
      (.array [.bool true]) := .item rfl
  have toCell : (Json.array [.bool true]).HasChild (.position 0) (.bool true) := .item rfl
  have hasAt : document.HasAt address (.bool true) :=
    .down toRows (.down toGrid (.down toCells (.down toRow (.down toCell (.here (.bool true))))))
  have rows : (document.follow [.key "rows"]).value = some (.array [.null, grid]) := rfl
  obtain ⟨large, odd⟩ := behind [.key "rows"] [.null, grid] rows
  have inDigits : InDigits "18446744073709551617" 18446744073709551617 :=
    inDigits_toString 18446744073709551617
  refine ⟨short, distinct, reached, (found tokens (.bool true)).mp reached,
    written address (.bool true) hasAt, large _ _ inDigits, ?_⟩
  exact odd (.key "+1") (Or.inr (Or.inr ⟨'+', by decide, by decide⟩))

end Json

end Reshape
