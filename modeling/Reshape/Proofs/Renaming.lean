import Mathlib.Logic.Function.Basic
import Reshape.Proofs.PathText
import Reshape.Proofs.Places
import Reshape.Proofs.Preservation

/-!
# Renaming variables

A `Renaming` is an injective map of texts that moves nothing but variable references. Everything
that evaluation does with a variable commutes with it: a renamed environment finds the same value
under a renamed name (`Env.get?_rename`), substitution in a renamed value comes to the same value
(`Env.value_subst_rename`), and a renamed path has the same items with renamed variables
(`Path.result_items_rename`).

The documents that rules are applied to must not hold a text that is moved. Such documents are a
family, `Renaming.unmoved`, and stay as they are under the renaming (`Json.rename_of_holds`).
-/

namespace Reshape

/-! ## Entries -/

namespace Entries

variable {α β : Type} {f : String → String} {g : α → β}

theorem get?_map (injective : Function.Injective f) (entries : Entries α) (key : String) :
    get? (entries.map (Prod.map f g)) (f key) = (get? entries key).map g := by
  induction entries with
  | nil => rfl
  | cons pair rest ih =>
    obtain ⟨k, v⟩ := pair
    rw [List.map_cons, Prod.map_apply, get?, get?, ih]
    by_cases same : k = key
    · rw [if_pos same, if_pos (congrArg f same), Option.map_some]
    · rw [if_neg same, if_neg (injective.ne same)]

theorem insert_map (injective : Function.Injective f) (entries : Entries α) (key : String)
    (value : α) : insert (entries.map (Prod.map f g)) (f key) (g value) =
      (insert entries key value).map (Prod.map f g) := by
  induction entries with
  | nil => rfl
  | cons pair rest ih =>
    obtain ⟨k, v⟩ := pair
    rw [List.map_cons, Prod.map_apply, insert, insert, ih]
    by_cases same : k = key
    · rw [if_pos same, if_pos (congrArg f same), List.map_cons, Prod.map_apply]
    · rw [if_neg same, if_neg (injective.ne same), List.map_cons, Prod.map_apply]

end Entries

/-! ## Renamings -/

/-- An injective map of texts that moves nothing but variable references, among each other. -/
structure Renaming where
  name : String → String
  injective : Function.Injective name
  isReference_name : ∀ text, isReference (name text) = isReference text
  name_of_plain : ∀ {text}, isReference text = false → name text = text
  dotless : ∀ {text}, '.' ∉ text.toList → '.' ∉ (name text).toList

namespace Renaming

variable (σ : Renaming)

/-- The text is moved. -/
def Moves (text : String) : Prop := σ.name text ≠ text

theorem isReference_of_moves {text : String} (moves : σ.Moves text) :
    isReference text = true := by
  cases reference : isReference text with
  | true => rfl
  | false => exact absurd (σ.name_of_plain reference) moves

/-- What a text is moved to is moved as well. -/
theorem moves_name {text : String} (moves : σ.Moves text) :
    σ.Moves (σ.name text) := fun fixed => moves (σ.injective fixed)

/-- The family of the values in which nothing is moved. -/
def unmoved : Json.Family := Json.avoiding σ.Moves fun _ => σ.isReference_of_moves

theorem name_of_admits {text : String} (admits : σ.unmoved.Admits text) :
    σ.name text = text := not_not.mp admits

theorem isReserved_name (key : String) : isReserved (σ.name key) = isReserved key := by
  cases reference : isReference key with
  | false => rw [σ.name_of_plain reference]
  | true =>
    have moved : isReference (σ.name key) = true := by
      rw [σ.isReference_name, reference]
    unfold isReserved beginsWithDollar
    rw [head?_eq_of_isReference reference, head?_eq_of_isReference moved]

end Renaming

/-! ## Values -/

namespace Json

mutual

/-- Map all strings and all keys of a value. -/
def mapTexts (onString onKey : String → String) : Json → Json
  | .null => .null
  | .bool value => .bool value
  | .number value => .number value
  | .string text => .string (onString text)
  | .array items => .array (mapItems onString onKey items)
  | .object entries => .object (mapEntries onString onKey entries)

/-- The same for the items of an array. -/
def mapItems (onString onKey : String → String) : List Json → List Json
  | [] => []
  | value :: rest => mapTexts onString onKey value :: mapItems onString onKey rest

/-- The same for the entries of an object. -/
def mapEntries (onString onKey : String → String) : List (String × Json) → List (String × Json)
  | [] => []
  | (key, value) :: rest =>
    (onKey key, mapTexts onString onKey value) :: mapEntries onString onKey rest

end

theorem mapTexts_array (onString onKey : String → String) (items : List Json) :
    (Json.array items).mapTexts onString onKey =
      .array (items.map (mapTexts onString onKey)) := by
  rw [mapTexts]
  refine congrArg Json.array ?_
  induction items with
  | nil => rfl
  | cons item rest ih => rw [mapItems, ih, List.map_cons]

theorem mapTexts_object (onString onKey : String → String) (entries : List (String × Json)) :
    (Json.object entries).mapTexts onString onKey =
      .object (entries.map (Prod.map onKey (mapTexts onString onKey))) := by
  rw [mapTexts]
  refine congrArg Json.object ?_
  induction entries with
  | nil => rfl
  | cons entry rest ih =>
    obtain ⟨key, value⟩ := entry
    rw [mapEntries, ih, List.map_cons, Prod.map_apply]

variable (σ : Renaming)

/-- Rename all strings and all keys of a value. -/
def rename (value : Json) : Json := value.mapTexts σ.name σ.name

/-- Rename the keys of entries and all texts in their values. -/
def renameEntries (entries : Entries Json) : Entries Json :=
  entries.map (Prod.map σ.name (rename σ))

variable {σ}

theorem rename_array (items : List Json) :
    (Json.array items).rename σ = .array (items.map (rename σ)) :=
  mapTexts_array _ _ items

theorem rename_object (entries : List (String × Json)) :
    (Json.object entries).rename σ = .object (renameEntries σ entries) :=
  mapTexts_object _ _ entries

/-- A value in which nothing is moved stays as it is. -/
theorem rename_of_holds {value : Json} (holds : σ.unmoved.Holds value) :
    value.rename σ = value := by
  induction value with
  | null => rfl
  | bool value => rfl
  | number value => rfl
  | string text =>
    have admits := σ.unmoved.string_iff.mp holds
    exact congrArg Json.string (σ.name_of_admits admits)
  | array items ih =>
    have parts := σ.unmoved.array_iff.mp holds
    rw [rename_array]
    refine congrArg Json.array ((List.map_congr_left fun item member => ?_).trans
      (List.map_id items))
    exact ih item member (parts item member)
  | object entries ih =>
    have parts := σ.unmoved.of_object holds
    rw [rename_object, renameEntries]
    refine congrArg Json.object ((List.map_congr_left fun entry member => ?_).trans
      (List.map_id entries))
    obtain ⟨admits, holds⟩ := parts entry member
    exact Prod.ext (σ.name_of_admits admits) (ih entry member holds)

theorem map_rename_of_holds {value : Option Json}
    (holds : ∀ v ∈ value, σ.unmoved.Holds v) :
    value.map (rename σ) = value := by
  cases value with
  | none => rfl
  | some value => exact congrArg some (rename_of_holds (holds value rfl))

end Json

/-! ## Environments and substitution -/

namespace Env

/-- Rename the variables of an environment; their values stay. -/
def rename (σ : Renaming) (env : Env) : Env := ⟨env.bindings.map (Prod.map σ.name id)⟩

variable {σ : Renaming}

/-- A renamed environment finds under a renamed name what was there. -/
theorem get?_rename (env : Env) (name : String) :
    (env.rename σ).get? (σ.name name) = env.get? name :=
  (Entries.get?_map σ.injective env.bindings name).trans (congrFun Option.map_id _)

theorem bind_rename (env : Env) (name : String) (value : Json) :
    (env.rename σ).bind (σ.name name) value = (env.bind name value).rename σ :=
  congrArg Env.mk (Entries.insert_map σ.injective env.bindings name value)

variable (env : Env) {missing : Missing}

theorem value_substText_rename (text : String) :
    ((env.rename σ).substText (σ.name text)).value = (env.substText text).value := by
  rw [value_substText, value_substText, σ.isReference_name, get?_rename]
  cases reference : isReference text with
  | true => rfl
  | false => rw [σ.name_of_plain reference]

theorem value_substKey_rename (key : String) :
    ((env.rename σ).substKey (σ.name key)).value = (env.substKey key).value := by
  rw [value_substKey, value_substKey, σ.isReference_name, get?_rename]
  cases reference : isReference key with
  | true => rfl
  | false => rw [σ.name_of_plain reference]

theorem value_substEntries_rename {entries : List (String × Json)}
    (parts : ∀ entry ∈ entries,
      ((env.rename σ).subst missing (entry.2.rename σ)).value = (env.subst missing entry.2).value)
    (written : Entries Json) :
    ((env.rename σ).substEntries missing written (Json.renameEntries σ entries)).value =
      (env.substEntries missing written entries).value := by
  induction entries generalizing written with
  | nil => rfl
  | cons entry rest ih =>
    obtain ⟨key, value⟩ := entry
    obtain ⟨first, parts⟩ := List.forall_mem_cons.mp parts
    have cons : Json.renameEntries σ ((key, value) :: rest) =
        (σ.name key, value.rename σ) :: Json.renameEntries σ rest := rfl
    rw [cons, value_substEntries_cons, value_substEntries_cons, value_substKey_rename, first]
    cases (env.substKey key).value with
    | none => exact ih parts written
    | some key => exact ih parts _

/-- Renaming before a substitution makes no difference, if the variables that are bound are renamed
as well. -/
theorem value_subst_rename (value : Json) :
    ((env.rename σ).subst missing (value.rename σ)).value = (env.subst missing value).value := by
  induction value with
  | null => rfl
  | bool value => rfl
  | number value => rfl
  | string text => exact env.value_substText_rename text
  | array items ih =>
    rw [Json.rename_array, value_subst_array, value_subst_array, List.map_map]
    refine congrArg (fun items => some (Json.array items))
      (List.map_congr_left fun item member => ?_)
    exact congrArg Json.orNull (ih item member)
  | object entries ih =>
    rw [Json.rename_object, value_subst_object, value_subst_object,
      env.value_substEntries_rename ih]

theorem value_substOption_rename (value : Option Json) :
    ((env.rename σ).substOption missing (value.map (Json.rename σ))).value =
      (env.substOption missing value).value := by
  rw [value_substOption, value_substOption]
  cases value with
  | none => rfl
  | some value => exact env.value_subst_rename value

end Env

/-! ## Paths -/

namespace Token

/-- Rename a variable. -/
def rename (f : String → String) : Token → Token
  | .key text => .key text
  | .var name => .var (f name)

theorem isVariable_rename (f : String → String) (token : Token) :
    (token.rename f).isVariable = token.isVariable := by
  cases token with
  | key text => rfl
  | var name => rfl

theorem variableNames_rename (f : String → String) (tokens : List Token) :
    variableNames (tokens.map (rename f)) = (variableNames tokens).map f := by
  induction tokens with
  | nil => rfl
  | cons token rest ih =>
    cases token with
    | key text => exact ih
    | var name => exact congrArg (f name :: ·) ih

end Token

/-- Rename the variables of a path. -/
def Path.rename (f : String → String) (path : Path) : Path := ⟨path.tokens.map (Token.rename f)⟩

section Follow

variable {σ : Renaming}

theorem Env.fill_rename (env : Env) (tokens : List Token) :
    (env.rename σ).fill (tokens.map (Token.rename σ.name)) =
      (env.fill tokens).map (Token.rename σ.name) := by
  unfold Env.fill
  rw [List.map_map, List.map_map]
  refine List.map_congr_left fun token _ => ?_
  cases token with
  | key text => rfl
  | var name =>
    simp only [Function.comp_apply, Token.rename, Env.fillToken]
    rw [Env.get?_rename]
    cases env.get? name with
    | none => rfl
    | some value => rfl

/-- A variable that is still in a path leads nowhere that its new name would not lead. -/
theorem Json.child?_rename {document : Json} (holds : σ.unmoved.Holds document) (token : Token) :
    document.child? (token.rename σ.name) = document.child? token := by
  cases token with
  | key text => rfl
  | var name =>
    cases document with
    | object entries =>
      by_cases moves : σ.Moves name
      · have absent : ∀ key, σ.Moves key → Entries.get? entries key = none := by
          intro key moves
          refine Entries.get?_eq_none_iff.mpr fun member => ?_
          obtain ⟨value, member⟩ := Entries.mem_keys_iff.mp member
          exact (σ.unmoved.of_object holds _ member).1 moves
        exact (absent _ (σ.moves_name moves)).trans (absent _ moves).symm
      · have fixed : σ.name name = name := not_not.mp moves
        exact congrArg (Entries.get? entries) fixed
    | null => rfl
    | bool value => rfl
    | number value => rfl
    | string text => rfl
    | array items => rfl

theorem Json.value_follow_rename {document : Json} (holds : σ.unmoved.Holds document)
    (tokens : List Token) :
    (document.follow (tokens.map (Token.rename σ.name))).value =
      (document.follow tokens).value := by
  induction tokens generalizing document with
  | nil => rfl
  | cons token rest ih =>
    rw [List.map_cons, Json.value_follow_cons, Json.value_follow_cons, child?_rename holds]
    cases found : document.child? token with
    | none => rfl
    | some value => exact ih (σ.unmoved.holds_child? holds found)

end Follow

/-! ## Items -/

/-- Two errors of one kind; where a path is reported, it is reported with its variables renamed. -/
inductive Error.Renamed (report : String → String) : Error → Error → Prop where
  | malformedPath (text other : String) :
      Renamed report (.malformedPath text) (.malformedPath other)
  | notARule (kind : Json.Kind) : Renamed report (.notARule kind) (.notARule kind)
  | severalVariables (path : String) (count : Nat) :
    Renamed report (.severalVariables path count) (.severalVariables (report path) count)
  | tooDeep (limit : Nat) : Renamed report (.tooDeep limit) (.tooDeep limit)
  | badConfig (fault : ConfigFault) : Renamed report (.badConfig fault) (.badConfig fault)

section Items

variable {σ : Renaming} {report : String → String}

/-- Rename the variables bound for an item. -/
def Item.rename (σ : Renaming) (item : Item) : Item := ⟨item.value, item.env.rename σ⟩

theorem Env.itemsOf_rename (env : Env) (value : Option Json) :
    (env.rename σ).itemsOf value = (env.itemsOf value).map (Item.rename σ) := by
  unfold Env.itemsOf
  rw [List.map_map]
  rfl

theorem Path.value_itemsAlong_rename {root : Json} (holds : σ.unmoved.Holds root) (env : Env)
    (before : List Token) (name : String) (after : List Token) :
    (itemsAlong root (env.rename σ) (before.map (Token.rename σ.name)) (σ.name name)
      (after.map (Token.rename σ.name))).value =
        (itemsAlong root env before name after).value.map (Item.rename σ) := by
  rw [value_itemsAlong, value_itemsAlong, Json.value_follow_rename holds, List.map_flatMap]
  refine List.flatMap_congr fun candidate _ => ?_
  have along : before.map (Token.rename σ.name) ++ .key candidate.asKey ::
      after.map (Token.rename σ.name) =
        (before ++ .key candidate.asKey :: after).map (Token.rename σ.name) := by
    rw [List.map_append, List.map_cons]
    rfl
  rw [along, Json.value_follow_rename holds, Env.bind_rename, Env.itemsOf_rename]

/-- A renamed path has the same items, in environments with renamed variables. -/
theorem Path.result_items_rename {path : Path}
    (reported : report path.text = (path.rename σ.name).text) {root : Json}
    (holds : σ.unmoved.Holds root) (env : Env) :
    Related (Error.Renamed report) (fun items renamed => renamed = items.map (Item.rename σ))
      (Eval.result (path.items root env))
      (Eval.result ((path.rename σ.name).items root (env.rename σ))) := by
  have filled : (env.rename σ).fill (path.rename σ.name).tokens =
      (env.fill path.tokens).map (Token.rename σ.name) := env.fill_rename path.tokens
  have stays : ∀ token : Token, (!(token.rename σ.name).isVariable) = !token.isVariable :=
    fun token => congrArg not (token.isVariable_rename σ.name)
  rw [result_items, result_items, filled, Token.variableNames_rename]
  rcases Token.variableNames (env.fill path.tokens) with _ | ⟨name, _ | ⟨other, rest⟩⟩
  · refine .ok ?_
    rw [Json.value_follow_rename holds, Env.itemsOf_rename]
  · refine .ok ?_
    rw [List.takeWhile_map, List.dropWhile_map, ← List.map_drop]
    simp only [Function.comp_def, stays]
    exact value_itemsAlong_rename holds env _ name _
  · have count : ((name :: other :: rest).map σ.name).length = (name :: other :: rest).length :=
      List.length_map ..
    simp only [List.map_cons] at count ⊢
    rw [count, ← reported]
    exact .error (.severalVariables path.text _)

end Items

/-! ## Outcomes -/

/-- Two outcomes of one item: the fields of the second one are renamed, and nothing is moved in key
and index. -/
structure OutcomeRenamed (σ : Renaming) (outcome renamed : Outcome) : Prop where
  key : renamed.key = outcome.key
  index : renamed.index = outcome.index
  holds : ∀ value ∈ outcome.key, σ.unmoved.Holds value
  fields : renamed.fields = Json.renameEntries σ outcome.fields

namespace OutcomeRenamed

variable {σ : Renaming}

theorem output {outcome other : Outcome} (renamed : OutcomeRenamed σ outcome other) :
    other.output = outcome.output.rename σ := by
  have kept : ∀ field : String × Json,
      (!isReserved (Prod.map σ.name (Json.rename σ) field).1) = !isReserved field.1 :=
    fun field => congrArg not (σ.isReserved_name field.1)
  unfold Outcome.output
  rw [Json.rename_object, renamed.fields, Json.renameEntries, List.filter_map]
  simp only [Function.comp_def, kept]
  rfl

theorem putAll {outcomes others : List Outcome}
    (renamed : List.Forall₂ (OutcomeRenamed σ) outcomes others) (written : Entries Json) :
    (Outcome.putAll (Json.renameEntries σ written) others).value =
      Json.renameEntries σ (Outcome.putAll written outcomes).value := by
  induction renamed generalizing written with
  | nil => rfl
  | @cons outcome other _ _ first _ ih =>
    rw [Outcome.value_putAll_cons, Outcome.value_putAll_cons, first.key]
    cases found : outcome.key with
    | none => exact ih written
    | some key =>
      -- the text of a key in which nothing is moved is not moved either
      have fixed : σ.name key.asKey = key.asKey :=
        σ.name_of_admits (σ.unmoved.admits_asKey (first.holds key found))
      have insert : Entries.insert (Json.renameEntries σ written) key.asKey other.output =
          Json.renameEntries σ (Entries.insert written key.asKey outcome.output) := by
        rw [first.output]
        conv_lhs => rw [← fixed]
        exact Entries.insert_map σ.injective written key.asKey outcome.output
      dsimp only
      rw [insert]
      exact ih _

/-- Renamed outcomes are collected into a renamed value. -/
theorem collect (keyed : Bool) {outcomes others : List Outcome}
    (renamed : List.Forall₂ (OutcomeRenamed σ) outcomes others) :
    Outcome.collect keyed others = (Outcome.collect keyed outcomes).rename σ := by
  cases keyed with
  | true =>
    change Json.object (Outcome.putAll (Json.renameEntries σ []) others).value =
      (Json.object (Outcome.putAll [] outcomes).value).rename σ
    rw [putAll renamed, Json.rename_object]
  | false =>
    have sorted := Outcome.forall₂_sorted
      (fun outcome other renamed position => by rw [renamed.index]) renamed
    have outputs : List.Forall₂ Eq ((Outcome.sorted others).map Outcome.output)
        (((Outcome.sorted outcomes).map Outcome.output).map (Json.rename σ)) := by
      rw [List.map_map, List.forall₂_map_left_iff, List.forall₂_map_right_iff]
      exact sorted.flip.imp fun other outcome renamed => renamed.output
    rw [List.forall₂_eq_eq_eq] at outputs
    change (Outcome.toArray others).value = (Outcome.toArray outcomes).value.rename σ
    rw [Outcome.value_toArray, Outcome.value_toArray, Json.rename_array, outputs]

end OutcomeRenamed

end Reshape
